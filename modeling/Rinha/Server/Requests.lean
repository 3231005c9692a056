import Rinha.Server.Exclusive

/-! That an accepted connection sends one request.

A connection gets its number where it is accepted and is read once. So the
requests recorded under one number are one request, in every run (`oneRequest`). -/
namespace Rinha.Server
open Library Request Client

variable {P N : Nat}

/-- What was received from one connection is one request. -/
def OneRequest (s : State P N) : Prop :=
  ∀ client request request', .received client request ∈ s.log → .received client request' ∈ s.log →
    request = request'

/-- The connections that are still to be read have numbers of their own, from which
nothing was received. -/
structure Numbered (s : State P N) : Prop where
  one : OneRequest s
  below : ∀ client request, .received client request ∈ s.log → client < s.accepted
  reading : ∀ p ∈ s.pending, p.op = .read → s.client p.slot < s.accepted
  unread : ∀ p ∈ s.pending, p.op = .read → ∀ request, .received (s.client p.slot) request ∉ s.log
  apart : ∀ p ∈ s.pending, ∀ q ∈ s.pending, p.op = .read → q.op = .read →
    s.client p.slot = s.client q.slot → p.slot = q.slot

/-- A change that accepts nothing and reads nothing. -/
theorem Numbered.quiet {s s' : State P N} (h : Numbered s) (extra : List Obs) (hlog : s'.log = s.log ++ extra)
    (hextra : ∀ client request, .received client request ∉ extra) (haccepted : s'.accepted = s.accepted)
    (hclient : s'.client = s.client) (hpending : ∀ p ∈ s'.pending, p.op = .read → p ∈ s.pending) :
    Numbered s' := by
  have hreceived : ∀ {client request}, .received client request ∈ s'.log → .received client request ∈ s.log := by
    intro client request hmem
    rw [hlog] at hmem
    exact (List.mem_append.mp hmem).resolve_right (hextra client request)
  constructor
  · exact fun client request request' hr hr' => h.one client request request' (hreceived hr) (hreceived hr')
  · rw [haccepted]
    exact fun client request hr => h.below client request (hreceived hr)
  · rw [haccepted, hclient]
    exact fun p hp hop => h.reading p (hpending p hp hop) hop
  · rw [hclient]
    exact fun p hp hop request hr => h.unread p (hpending p hp hop) hop request (hreceived hr)
  · rw [hclient]
    exact fun p hp q hq hop hop' => h.apart p (hpending p hp hop) q (hpending q hq hop') hop hop'

/-- The same where nothing is recorded. -/
theorem Numbered.same {s s' : State P N} (h : Numbered s) (hlog : s'.log = s.log)
    (haccepted : s'.accepted = s.accepted) (hclient : s'.client = s.client)
    (hpending : ∀ p ∈ s'.pending, p.op = .read → p ∈ s.pending) : Numbered s' :=
  h.quiet [] (hlog.trans (List.append_nil _).symm) (fun _ _ => List.not_mem_nil) haccepted hclient hpending

theorem mem_submit {pending : List (Pending P)} {op op' : Op} {i : Fin P} (hne : op ≠ op') :
    ∀ p ∈ pending ++ [⟨op, i⟩], p.op = op' → p ∈ pending := by
  intro p hp hop
  refine (List.mem_append.mp hp).resolve_right fun hnew => hne ?_
  rw [← hop, List.mem_singleton.mp hnew]

/-! ### The dispatch -/

theorem numbered_dispatch {s s' : State P N} (hs : Consistent s []) (h : Numbered s) {outcomes : Nat → Outcome}
    (hd : s.queuDispatch outcomes = .ok s') : Numbered s' := by
  have hconn : ∀ t : State P N, Numbered t → Numbered t.getDbconn.2 := by
    intro t ht
    rcases getDbconn_cases t with ⟨c, _, heq⟩ | heq
    · rw [heq]
      exact ht.same rfl rfl rfl fun p hp _ => hp
    · rw [heq]
      exact ht
  have hkept : KeptByTurns fun (_ : Option (Fin N)) (t : State P N) => Numbered t := by
    refine ⟨fun c t queue ht _ _ => ?_, fun c t queue i response _ ht _ _ _ _ => ?_,
      fun c t queue i query o _ ht _ _ _ => hconn _ ?_⟩
    · exact ht.same rfl rfl rfl fun p hp _ => hp
    · exact ht.quiet _ rfl (by simp) rfl rfl (mem_submit (by decide))
    · by_cases hsends : t.Sends c o
      · exact ht.quiet _ (if_pos hsends) (by simp) rfl rfl (mem_submit (by decide))
      · exact ht.same (if_neg hsends) rfl rfl
          (mem_submit (by decide))
  exact queuDispatch_keeps (Q := Numbered) hkept (fun _ ht => ht)
    (fun _ _ ht => ht.same rfl rfl rfl fun _ hp _ => hp)
    hs (hconn s h) hd

/-! ### A completion -/

/-- A connection that is read is no longer to be read. -/
theorem Numbered.read {s s' : State P N} {p : Pending P} {request : List UInt8} (h : Numbered s)
    (hbelow : s.client p.slot < s.accepted) (hunread : ∀ request, .received (s.client p.slot) request ∉ s.log)
    (hapart : ∀ q ∈ s.pending, q.op = .read → s.client q.slot ≠ s.client p.slot) (extra : List Obs)
    (hlog : s'.log = s.log ++ .received (s.client p.slot) request :: extra)
    (hextra : ∀ client request, .received client request ∉ extra) (haccepted : s'.accepted = s.accepted)
    (hclient : s'.client = s.client) (hpending : ∀ q ∈ s'.pending, q.op = .read → q ∈ s.pending) :
    Numbered s' := by
  have hreceived : ∀ {client request'}, .received client request' ∈ s'.log →
      .received client request' ∈ s.log ∨ client = s.client p.slot ∧ request' = request := by
    intro client request' hmem
    rw [hlog, List.mem_append, List.mem_cons] at hmem
    rcases hmem with hmem | hmem | hmem
    · exact .inl hmem
    · cases hmem
      exact .inr ⟨rfl, rfl⟩
    · exact absurd hmem (hextra client request')
  constructor
  · intro client r r' hr hr'
    rcases hreceived hr with hold | ⟨rfl, rfl⟩
    · rcases hreceived hr' with hold' | ⟨rfl, _⟩
      · exact h.one client r r' hold hold'
      · exact absurd hold (hunread r)
    · rcases hreceived hr' with hold' | ⟨_, rfl⟩
      · exact absurd hold' (hunread r')
      · rfl
  · intro client r hr
    rw [haccepted]
    rcases hreceived hr with hold | ⟨rfl, _⟩
    · exact h.below client r hold
    · exact hbelow
  · rw [haccepted, hclient]
    exact fun q hq hop => h.reading q (hpending q hq hop) hop
  · rw [hclient]
    intro q hq hop r hr
    rcases hreceived hr with hold | ⟨heq, _⟩
    · exact h.unread q (hpending q hq hop) hop r hold
    · exact hapart q (hpending q hq hop) hop heq
  · rw [hclient]
    exact fun q hq q' hq' hop hop' => h.apart q (hpending q hq hop) q' (hpending q' hq' hop') hop hop'

theorem numbered_handled {s s' : State P N} {c : Completion} {p : Pending P} (hc : Consistent s [p.slot])
    (h : Numbered s)
    (hread : p.op = .read → s.client p.slot < s.accepted ∧
      (∀ request, .received (s.client p.slot) request ∉ s.log) ∧
        ∀ q ∈ s.pending, q.op = .read → s.client q.slot ≠ s.client p.slot)
    (hs : Handled s c p s') : Numbered s' := by
  cases hs with
  | failed hresult => exact h
  | answered response r hop hresult hno hr hresponse =>
    obtain ⟨hbelow, hunread, hapart⟩ := hread hop
    exact h.read hbelow hunread hapart _ (List.append_assoc ..) (by simp) rfl rfl (mem_submit (by decide))
  | queued queue r hop hresult hbuffer hr hpush =>
    obtain ⟨hbelow, hunread, hapart⟩ := hread hop
    exact h.read hbelow hunread hapart [] rfl (fun _ _ => List.not_mem_nil) rfl rfl fun q hq _ => hq
  | replied d conn r handler hop hresult hhandler hdbconn hcall =>
    exact h.quiet _ rfl (by simp) rfl rfl (mem_submit (by decide))
  | written hop hresult =>
    exact h.same rfl rfl rfl (mem_submit (by decide))
  | closed hop hresult =>
    exact h.same rfl rfl rfl fun q hq _ => hq
  | accepted j hop hresult hfree hne =>
    -- The connection gets a number that is above all the others.
    have hcases : ∀ q ∈ s.pending ++ [⟨.read, p.slot⟩] ++ [⟨.accept, j⟩], q.op = .read →
        (q ∈ s.pending ∧ Function.update s.client p.slot s.accepted q.slot = s.client q.slot) ∨
          (q.slot = p.slot ∧ Function.update s.client p.slot s.accepted q.slot = s.accepted) := by
      intro q hq hread
      rcases List.mem_append.mp hq with hq | hq
      · rcases List.mem_append.mp hq with hq | hq
        · exact .inl ⟨hq, Function.update_of_ne (hc.not_pending hq) ..⟩
        · rw [List.mem_singleton.mp hq]
          exact .inr ⟨rfl, Function.update_self ..⟩
      · rw [List.mem_singleton.mp hq] at hread
        cases hread
    constructor
    · exact h.one
    · exact fun client request hr => Nat.lt_succ_of_lt (h.below client request hr)
    · intro q hq hread
      rcases hcases q hq hread with ⟨hold, heq⟩ | ⟨_, heq⟩
      · exact heq.trans_lt (Nat.lt_succ_of_lt (h.reading q hold hread))
      · exact heq.trans_lt (Nat.lt_succ_self s.accepted)
    · intro q hq hread request hr
      replace hr : .received (Function.update s.client p.slot s.accepted q.slot) request ∈ s.log := hr
      rcases hcases q hq hread with ⟨hold, heq⟩ | ⟨_, heq⟩
      · rw [heq] at hr
        exact h.unread q hold hread request hr
      · rw [heq] at hr
        exact absurd (h.below _ _ hr) (lt_irrefl _)
    · intro q hq q' hq' hread hread' heq
      rcases hcases q hq hread with ⟨hold, hclient⟩ | ⟨hslot, hclient⟩
      · rcases hcases q' hq' hread' with ⟨hold', hclient'⟩ | ⟨_, hclient'⟩
        · exact h.apart q hold q' hold' hread hread' (hclient.symm.trans (heq.trans hclient'))
        · exact absurd (h.reading q hold hread) (by rw [hclient.symm.trans (heq.trans hclient')]; exact lt_irrefl _)
      · rcases hcases q' hq' hread' with ⟨hold', hclient'⟩ | ⟨hslot', _⟩
        · exact absurd (h.reading q' hold' hread')
            (by rw [hclient'.symm.trans (heq.symm.trans hclient)]; exact lt_irrefl _)
        · exact hslot.trans hslot'.symm

/-! ### Every run -/

theorem numbered_handle {s s' : State P N} {c : Completion} (hs : Consistent s []) (h : Numbered s)
    (ht : s.handle c = .ok s') : Consistent s' [] ∧ Numbered s' := by
  obtain ⟨p, hp, _, hcompleted, hhandled, hcons⟩ := handle_cases hs ht
  have hmem := List.mem_of_getElem? hp
  have hrest : Numbered (s.completed c.index) :=
    h.same rfl rfl rfl
      fun q hq _ => List.mem_of_mem_eraseIdx hq
  refine ⟨hcons, numbered_handled hcompleted hrest (fun hop => ?_) hhandled⟩
  refine ⟨h.reading p hmem hop, h.unread p hmem hop, fun q hq hread heq => ?_⟩
  exact hcompleted.not_pending hq (h.apart q (List.mem_of_mem_eraseIdx hq) p hmem hread hop heq)

theorem numbered_step {s s' : State P N} {input : Input} (h : Consistent s [] ∧ Numbered s)
    (hs : s.step input = .ok s') : Consistent s' [] ∧ Numbered s' := by
  refine ⟨consistent_step h.1 hs, ?_⟩
  rcases step_cases hs with ⟨c, outcomes, t, rfl, ht, hd⟩ | ⟨outcomes, rfl, hd⟩
  · obtain ⟨htcons, htnumbered⟩ := numbered_handle h.1 h.2 ht
    exact numbered_dispatch htcons htnumbered hd
  · exact numbered_dispatch h.1 h.2 hd

theorem numbered_start {s : State P N} (hs : (State.start : Except Stop (State P N)) = .ok s) : Numbered s := by
  obtain ⟨i, t, outcomes, rfl, ht, hd⟩ := start_cases hs
  have hnone : ∀ p ∈ [(⟨.accept, i⟩ : Pending P)], p.op ≠ .read := by
    intro p hp
    rw [List.mem_singleton.mp hp]
    exact nofun
  exact numbered_dispatch ht ⟨nofun, nofun, fun p hp hop => absurd hop (hnone p hp),
    fun p hp hop => absurd hop (hnone p hp), fun p hp q hq hop => absurd hop (hnone p hp)⟩ hd

theorem oneRequest {s : State P N} (hs : (State.start : Except Stop (State P N)) = .ok s) (inputs : List Input) :
    Throughout State.step OneRequest s inputs :=
  (throughout_of_all (fun _ _ _ => numbered_step) ⟨consistent_start hs, numbered_start hs⟩ inputs).mono
    fun _ h => h.2.one

end Rinha.Server
