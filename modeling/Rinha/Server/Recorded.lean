import Rinha.Server.Exchange
import Rinha.Server.Noninterference

/-! What is recorded of requests and commands.

The requests are what was read into arrays that were all zero before, and no two
commands have one number. -/
namespace Rinha.Server
open Library Request Client

variable {P N : Nat}

structure Recorded (s : State P N) : Prop where
  texts : ∀ client request, .received client request ∈ s.log →
    ∃ text, text.length ≤ maxReqRespSize ∧ request = received text
  below : ∀ client tag query, .sent client tag query ∈ s.log → tag < s.sent
  apart : ∀ tag client client' query query', .sent client tag query ∈ s.log → .sent client' tag query' ∈ s.log →
    client = client' ∧ query = query'

/-- More is recorded: texts that were read, and one command, with the next number. -/
theorem Recorded.extend {s s' : State P N} (h : Recorded s) (extra : List Obs) (hlog : s'.log = s.log ++ extra)
    (hsent : s.sent ≤ s'.sent)
    (htexts : ∀ client request, .received client request ∈ extra →
      ∃ text, text.length ≤ maxReqRespSize ∧ request = received text)
    (hnext : ∀ client tag query, .sent client tag query ∈ extra → tag = s.sent ∧ s.sent < s'.sent)
    (hone : ∀ client tag query client' tag' query', .sent client tag query ∈ extra →
      .sent client' tag' query' ∈ extra → client = client' ∧ query = query') : Recorded s' := by
  refine ⟨fun client request hmem => ?_, fun client tag query hmem => ?_,
    fun tag client client' query query' hmem hmem' => ?_⟩
  · rw [hlog] at hmem
    exact (List.mem_append.mp hmem).elim (h.texts client request) (htexts client request)
  · rw [hlog] at hmem
    rcases List.mem_append.mp hmem with hmem | hmem
    · exact lt_of_lt_of_le (h.below client tag query hmem) hsent
    · obtain ⟨rfl, hlt⟩ := hnext client tag query hmem
      exact hlt
  · rw [hlog] at hmem hmem'
    rcases List.mem_append.mp hmem with hmem | hmem
    · rcases List.mem_append.mp hmem' with hmem' | hmem'
      · exact h.apart tag client client' query query' hmem hmem'
      · obtain ⟨rfl, _⟩ := hnext client' tag query' hmem'
        exact absurd (h.below client _ query hmem) (lt_irrefl _)
    · rcases List.mem_append.mp hmem' with hmem' | hmem'
      · obtain ⟨rfl, _⟩ := hnext client tag query hmem
        exact absurd (h.below client' _ query' hmem') (lt_irrefl _)
      · exact hone client tag query client' tag query' hmem hmem'

/-- Nothing is read or sent. -/
theorem Recorded.quiet {s s' : State P N} (h : Recorded s) (extra : List Obs) (hlog : s'.log = s.log ++ extra)
    (hsent : s'.sent = s.sent) (hextra : ∀ o ∈ extra, ∃ client buffer source, o = .wrote client buffer source) :
    Recorded s' := by
  refine h.extend extra hlog hsent.ge (fun client request hmem => ?_) (fun client tag query hmem => ?_)
    fun client tag query _ _ _ hmem _ => ?_
  · obtain ⟨_, _, _, heq⟩ := hextra _ hmem
    cases heq
  · obtain ⟨_, _, _, heq⟩ := hextra _ hmem
    cases heq
  · obtain ⟨_, _, _, heq⟩ := hextra _ hmem
    cases heq

theorem Recorded.same {s s' : State P N} (h : Recorded s) (hlog : s'.log = s.log) (hsent : s'.sent = s.sent) :
    Recorded s' := h.quiet [] (hlog.trans (List.append_nil _).symm) hsent fun _ ho => absurd ho List.not_mem_nil

theorem Recorded.getDbconn {s : State P N} (h : Recorded s) : Recorded s.getDbconn.2 := by
  rcases getDbconn_cases s with ⟨c, _, heq⟩ | heq
  · rw [heq]
    exact h.same rfl rfl
  · rw [heq]
    exact h

theorem Recorded.sendTurn {s : State P N} (h : Recorded s) (queue : Queue (Fin P)) (i : Fin P) (c : Fin N)
    (query : Query) (o : Outcome) : Recorded (s.sendTurn queue i c query o) := by
  by_cases hsends : s.Sends c o
  · have hsent : (s.sendTurn queue i c query o).sent = s.sent + 1 := if_pos hsends
    refine h.extend [.sent (s.client i) s.sent query] (if_pos hsends) (by omega) (by simp) (fun client tag q hmem => ?_)
      fun client tag q client' tag' q' hmem hmem' => ?_
    · cases List.mem_singleton.mp hmem
      exact ⟨rfl, by omega⟩
    · cases List.mem_singleton.mp hmem
      cases List.mem_singleton.mp hmem'
      exact ⟨rfl, rfl⟩
  · exact h.same (if_neg hsends) (if_neg hsends)

theorem recorded_dispatch {s s' : State P N} (hs : Consistent s []) (h : Recorded s) {outcomes : Nat → Outcome}
    (hd : s.queuDispatch outcomes = .ok s') : Recorded s' := by
  have hkept : KeptByTurns fun (_ : Option (Fin N)) (t : State P N) => Recorded t := by
    constructor
    · intro c t queue ht _ _
      exact ht.same rfl rfl
    · intro c t queue i response _ ht _ _ _ _
      exact ht.quiet _ rfl rfl (by simp)
    · intro c t queue i query o _ ht _ _ _
      exact (ht.sendTurn queue i c query o).getDbconn
  exact queuDispatch_keeps (Q := Recorded) hkept (fun _ ht => ht) (fun _ _ ht => ht.same rfl rfl) hs h.getDbconn hd

/-- A slot that is read into is all zero, and no more is read than it has room for. -/
theorem recorded_handled {s s' : State P N} {c : Completion} {p : Pending P} (h : Recorded s)
    (hslot : SlotFor p.op (s.pool p.slot)) (hpossible : c.possible p.op = true) (hs : Handled s c p s') :
    Recorded s' := by
  have hread : p.op = .read → 0 ≤ c.result →
      ∃ text, text.length ≤ maxReqRespSize ∧ memcpy (s.pool p.slot).buffer c.data = received text := by
    intro hop hresult
    rw [hop] at hslot hpossible
    obtain ⟨fd, hfd⟩ := hslot
    refine ⟨c.data, ?_, by rw [hfd]; rfl⟩
    simp only [Completion.possible, Bool.or_eq_true, decide_eq_true_eq, Bool.and_eq_true] at hpossible
    rcases hpossible with (hother | hfailed) | hlength
    · exact absurd rfl hother
    · exact absurd hfailed (not_lt.mpr hresult)
    · exact hlength.1
  cases hs with
  | failed hresult => exact h
  | accepted j hop hresult hfree hne => exact h.same rfl rfl
  | answered response r hop hresult hno hr hresponse =>
    refine h.extend _ (List.append_assoc ..) le_rfl (fun client request hmem => ?_) (by simp) (by simp)
    rcases List.mem_append.mp hmem with hmem | hmem
    · cases List.mem_singleton.mp hmem
      exact hread hop hresult
    · simp at hmem
  | queued queue r hop hresult hbuffer hr hpush =>
    refine h.extend _ rfl le_rfl (fun client request hmem => ?_) (by simp) (by simp)
    cases List.mem_singleton.mp hmem
    exact hread hop hresult
  | replied d conn r handler hop hresult hhandler hdbconn hcall => exact h.quiet _ rfl rfl (by simp)
  | written hop hresult => exact h.same rfl rfl
  | closed hop hresult => exact h.same rfl rfl

theorem possible_of_handle {s t : State P N} {c : Completion} {p : Pending P} (hp : s.pending[c.index]? = some p)
    (ht : s.handle c = .ok t) : c.possible p.op = true := by
  cases hpossible : c.possible p.op with
  | true => rfl
  | false =>
    unfold State.handle at ht
    simp only [hp, hpossible] at ht
    cases ht

theorem recorded_step {s s' : State P N} {input : Input} (h : Consistent s [] ∧ Recorded s)
    (hs : s.step input = .ok s') : Consistent s' [] ∧ Recorded s' := by
  refine ⟨consistent_step h.1 hs, ?_⟩
  rcases step_cases hs with ⟨c, outcomes, t, rfl, ht, hd⟩ | ⟨outcomes, rfl, hd⟩
  · obtain ⟨p, hp, hslot, _, hhandled, hcons⟩ := handle_cases h.1 ht
    have hrest : Recorded (s.completed c.index) := h.2.same rfl rfl
    exact recorded_dispatch hcons (recorded_handled hrest hslot (possible_of_handle hp ht) hhandled) hd
  · exact recorded_dispatch h.1 h.2 hd

theorem recorded_start {s : State P N} (hs : (State.start : Except Stop (State P N)) = .ok s) : Recorded s := by
  obtain ⟨i, t, outcomes, rfl, ht, hd⟩ := start_cases hs
  exact recorded_dispatch ht ⟨nofun, nofun, nofun⟩ hd

end Rinha.Server
