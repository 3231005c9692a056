import Mathlib.Algebra.BigOperators.Ring.Finset
import Mathlib.Algebra.Group.Action.Defs
import Mathlib.Algebra.Order.BigOperators.Group.List
import Mathlib.Algebra.Order.Ring.Int
import Rinha.Library.Potential
import Rinha.Server.Accepting
import Rinha.Server.Ownership
import Rinha.Server.Serving

/-! That the server does not stand still, and comes to rest.

A request is queued only while every database connection is used, and a connection
is used only while a read on it is pending: as long as no such read fails, nothing is
queued behind a free connection (`work_conserving`). Where every slot is handed on,
a server that has only its accept pending has nothing else left at all
(`atRest_of_handsOn`). And it comes to that: what an accepted connection still takes
is a number of completions that each of them lowers (`left_run`). -/
namespace Rinha.Server
open Library Request Client

variable {P N : Nat}

/-! ### No request waits for a free connection -/

/-- Every connection is used, and a read on each is pending, whether or not a command
was taken there. -/
def AllAwaited (s : State P N) : Prop := ∀ c, s.used c = true ∧ s.awaiting c ≠ 0

/-- What is between two waits: a read is pending on a used connection, and the last
dispatch has left nothing that it could have taken. -/
structure Working (s : State P N) : Prop where
  consistent : Consistent s []
  occupied : Occupied none s
  exhausted : Exhausted s

theorem Working.allAwaited {s : State P N} (h : Working s) (hqueue : s.queue.contents ≠ []) :
    AllAwaited s := by
  intro c
  have hused := h.exhausted.resolve_left hqueue c
  exact ⟨hused, h.occupied c nofun hused⟩

/-- A turn uses its connection for a request that waits on it, or gives it back. -/
theorem occupied_turns : KeptByTurns fun (hand : Option (Fin N)) (s : State P N) => Occupied hand s := by
  constructor
  · intro c s queue h _ _
    exact h
  · intro c s queue i response hs h hcons _ _ _ d hd hused
    have hdc : d ≠ c := fun heq => hd (congrArg some heq.symm)
    have hsame : (s.refuseTurn queue i c response).used d = s.used d := Function.update_of_ne hdc ..
    rw [awaiting_refuseTurn hs hcons c response]
    exact h d hd (hsame.symm.trans hused)
  · intro c s queue i query o hs h hcons _ _
    apply occupied_getDbconn
    intro d _ hused
    rw [awaiting_sendTurn hs hcons c query o]
    by_cases hcd : c = d
    · rw [if_pos hcd]
      omega
    · rw [if_neg hcd, Nat.add_zero]
      exact h d (fun heq => hcd (Option.some.inj heq)) hused

theorem Occupied.release {s : State P N} {c : Fin N} (h : Occupied (some c) s) :
    Occupied none (s.setUsed c false) := by
  intro d _ hused
  have hdc : d ≠ c := by
    rintro rfl
    rw [s.setUsed_self] at hused
    cases hused
  rw [s.setUsed_ne false hdc] at hused
  exact h d (fun heq => hdc (Option.some.inj heq).symm) hused

theorem exhausted_dispatch {s s' : State P N} (h : Consistent s []) {outcomes : Nat → Outcome}
    (hd : s.queuDispatch outcomes = .ok s') : Exhausted s' := by
  obtain ⟨hand, t, taken, hloop, _, hfull, hempty⟩ :=
    dispatchLoop_serves outcomes _ 0 s.getDbconn.1 s.getDbconn.2 h.dispatchable.getDbconn rfl
      (handOrFull_getDbconn s)
  have hlast := hloop _ (Nat.lt_succ_self _)
  unfold State.queuDispatch at hd
  simp only [hlast] at hd
  cases hand with
  | none =>
    cases hd
    exact .inr (hfull rfl)
  | some c =>
    cases hd
    exact .inl (hempty rfl)

theorem working_dispatch {s s' : State P N} (h : Consistent s []) (ho : Occupied none s) {outcomes : Nat → Outcome}
    (hd : s.queuDispatch outcomes = .ok s') : Working s' where
  consistent := consistent_of_dispatch h hd
  occupied := queuDispatch_keeps occupied_turns (fun _ ht => ht) (fun _ _ ht => ht.release) h
    (occupied_getDbconn ho) hd
  exhausted := exhausted_dispatch h hd

theorem occupied_handle {s s' : State P N} {c : Completion} (h : Consistent s []) (ho : Occupied none s)
    (hread : ∀ p ∈ s.pending[c.index]?, p.op = .dbRead → 0 ≤ c.result) (hs : s.handle c = .ok s') :
    Consistent s' [] ∧ Occupied none s' := by
  obtain ⟨p, hp, _, hcompleted, hhandled, hcons⟩ := handle_cases h hs
  refine ⟨hcons, occupied_handled hcompleted (fun d hused => ?_) (hread p hp) hhandled⟩
  have hbefore := ho d nofun hused
  have hawaiting := awaiting_completed hp d
  by_cases hdb : p.op = .dbRead ∧ (s.pool p.slot).dbconn = some d
  · exact .inr hdb
  · rw [if_neg hdb, Nat.add_zero] at hawaiting
    exact .inl (by rw [← hawaiting]; exact hbefore)

theorem Working.step {s s' : State P N} {input : Input} (h : Working s) (hC : ReplyArrives s input)
    (hs : s.step input = .ok s') : Working s' := by
  rcases step_cases hs with ⟨c, outcomes, t, rfl, ht, hd⟩ | ⟨outcomes, rfl, hd⟩
  · obtain ⟨hcons, hoccupied⟩ := occupied_handle h.consistent h.occupied hC ht
    exact working_dispatch hcons hoccupied hd
  · exact working_dispatch h.consistent h.occupied hd

theorem working_start {s : State P N} (hs : (State.start : Except Stop (State P N)) = .ok s) : Working s := by
  obtain ⟨i, t, outcomes, rfl, ht, hd⟩ := start_cases hs
  refine working_dispatch ht (fun d _ hused => ?_) hd
  cases hused

/-- **Nothing is queued behind a free connection**, in every run where no read on a
connection of the pool fails. -/
theorem work_conserving {s : State P N} (hs : (State.start : Except Stop (State P N)) = .ok s)
    (inputs : List Input) (h : EachStep State.step ReplyArrives s inputs) :
    Throughout State.step (fun s => s.queue.contents ≠ [] → AllAwaited s) s inputs :=
  (throughout_of_steps (fun _ _ _ => Working.step) (working_start hs) h).mono fun _ => Working.allAwaited

/-- A read is pending on the one connection while two requests are queued. -/
theorem work_conserving_behindRefused :
    ∃ s t : State 4 1, State.start = .ok s ∧ run State.step s (behindRefused.take 6) = .ok t ∧
      t.queue.contents = [1, 2] ∧ AllAwaited t := by
  obtain ⟨s, hs, hrun⟩ := exists_of_map_ok (x := (State.start : Except Stop (State 4 1)))
    (f := fun s => (decide (EachStep State.step ReplyArrives s (behindRefused.take 6)),
      (run State.step s (behindRefused.take 6)).map fun t => t.queue.contents))
    (b := (true, .ok [1, 2])) (by decide +kernel)
  obtain ⟨hC, hqueue⟩ := Prod.mk.inj hrun
  obtain ⟨t, ht, hqueue⟩ := exists_of_map_ok hqueue
  refine ⟨s, t, hs, ht, hqueue, ?_⟩
  exact (work_conserving hs _ (of_decide_eq_true hC)).last ht (by rw [hqueue]; exact List.cons_ne_nil _ _)

/-! ### A server at rest -/

/-- Only the accept is pending, on the one slot in use; the others are free and all
zero, nothing is queued, and no database connection is used. -/
structure AtRest (s : State P N) : Prop where
  queue : s.queue.contents = []
  unused : ∀ c, s.used c = false
  accept : ∃ i, s.pending = [⟨.accept, i⟩] ∧ ∀ j, j ≠ i → s.pool j = .zero

theorem awaiting_of_accepts {s : State P N} (h : ∀ p ∈ s.pending, p.op = .accept) (c : Fin N) :
    s.awaiting c = 0 := by
  apply List.countP_eq_zero.mpr
  intro p hp
  simp [h p hp]

/-- With a database to serve from, what waits for nobody but a new client has nothing
else to wait for. -/
theorem Working.atRest {s : State P N} (hN : 0 < N) (h : Working s) (hconserved : Conserved s)
    (haccepting : Accepting s) (honly : ∀ p ∈ s.pending, p.op = .accept) : AtRest s := by
  have hunused : ∀ c, s.used c = false := by
    intro c
    cases hused : s.used c with
    | false => rfl
    | true => exact absurd (awaiting_of_accepts honly c) (h.occupied c nofun hused)
  have hqueue : s.queue.contents = [] := by
    apply h.exhausted.resolve_right
    intro hall
    have hfirst := hall ⟨0, hN⟩
    rw [hunused] at hfirst
    cases hfirst
  have hlength : s.pending.length = 1 := by
    rw [← haccepting]
    exact (List.countP_eq_length.mpr fun p hp => by simpa using honly p hp).symm
  obtain ⟨p, hp⟩ := List.length_eq_one_iff.mp hlength
  have hop : p.op = .accept := honly p (by rw [hp]; exact List.mem_singleton_self p)
  refine ⟨hqueue, hunused, p.slot, ?_, fun j hj => h.consistent.free j ?_⟩
  · rw [hp, ← hop]
  · have hplace := hconserved j
    have hpending : s.pendingOf j = 0 := by
      rw [State.pendingOf, hp]
      exact List.count_eq_zero.mpr fun hmem => hj (List.mem_singleton.mp hmem)
    have hqueued : s.queuedOf j = 0 := by
      rw [State.queuedOf, hqueue]
      exact List.count_nil
    by_contra hring
    rw [if_pos (by simpa using hring)] at hplace
    omega

instance (buffer : List UInt8) : Decidable (WantsDatabase buffer) :=
  match h : requestParser buffer with
  | .error _ => .isFalse fun hwants => by
    obtain ⟨d, hd, _⟩ := hwants
    cases h.symm.trans hd
  | .ok reqdata => decidable_of_iff (reqdata.id < 6 ∧ ((reqdata.method = .get ∧ reqdata.uri = .extrato) ∨
      (reqdata.method = .post ∧ reqdata.uri = .transacao)))
    ⟨fun hwants => ⟨reqdata, h, hwants⟩, fun hwants => by
      obtain ⟨d, hd, hrest⟩ := hwants
      cases h.symm.trans hd
      exact hrest⟩

instance (s : State P N) : (input : Input) → Decidable (HandsOn s input)
  | .completes c _ => inferInstanceAs (Decidable (0 ≤ c.result ∧ ∀ p ∈ s.pending[c.index]?, p.op = .read →
      WantsDatabase (memcpy (s.pool p.slot).buffer c.data) → s.queue.LastIsFinal))
  | .interrupted _ => .isTrue trivial
  | .fails => .isTrue trivial

theorem HandsOn.replyArrives {s : State P N} {input : Input} (h : HandsOn s input) : ReplyArrives s input := by
  cases input with
  | completes c outcomes => exact fun _ _ _ => h.1
  | interrupted outcomes => trivial
  | fails => trivial

theorem HandsOn.acceptSucceeds {s : State P N} {input : Input} (h : HandsOn s input) : AcceptSucceeds s input := by
  cases input with
  | completes c outcomes => exact fun _ _ _ => h.1
  | interrupted outcomes => trivial
  | fails => trivial

theorem working_handsOn {s s' : State P N} {input : Input} (h : Working s ∧ Conserved s ∧ Accepting s)
    (hC : HandsOn s input) (hs : s.step input = .ok s') : Working s' ∧ Conserved s' ∧ Accepting s' := by
  obtain ⟨hworking, hconserved, haccepting⟩ := h
  exact ⟨hworking.step hC.replyArrives hs, (conserved_step hworking.consistent hconserved hs).mpr hC,
    (accepting_step hworking.consistent haccepting hs).mpr hC.acceptSucceeds⟩

theorem accepting_start {s : State P N} (hs : (State.start : Except Stop (State P N)) = .ok s) : Accepting s := by
  obtain ⟨i, t, outcomes, rfl, ht, hd⟩ := start_cases hs
  unfold Accepting
  rw [accepts_dispatch ht hd]
  rfl

theorem handsOn_start {s : State P N} (hs : (State.start : Except Stop (State P N)) = .ok s) :
    Working s ∧ Conserved s ∧ Accepting s :=
  ⟨working_start hs, (consistent_start hs).conserved_iff.mpr (covered_start hs), accepting_start hs⟩

/-- **A server that waits for nobody but a new client is at rest**: in every run where
every slot is handed on, no request is left behind anywhere. -/
theorem atRest_of_handsOn (hN : 0 < N) {s : State P N} (hs : (State.start : Except Stop (State P N)) = .ok s)
    (inputs : List Input) (h : EachStep State.step HandsOn s inputs) :
    Throughout State.step (fun s => (∀ p ∈ s.pending, p.op = .accept) → AtRest s) s inputs := by
  apply (throughout_of_steps (fun _ _ _ => working_handsOn) (handsOn_start hs) h).mono
  intro s h
  exact h.1.atRest hN h.2.1 h.2.2

/-- The run of a client that asks for an extrato and reads it, cut behind its accept. -/
theorem extratoClient_runs :
    ∃ s t u : State 2 1, State.start = .ok s ∧ run State.step s (extratoClient.take 1) = .ok t ∧
      run State.step t (extratoClient.drop 1) = .ok u ∧ run State.step s extratoClient = .ok u ∧
        EachStep State.step HandsOn s extratoClient ∧ ∀ p ∈ u.pending, p.op = .accept := by
  obtain ⟨s, hs, hrun⟩ := exists_of_map_ok (x := (State.start : Except Stop (State 2 1)))
    (f := fun s => (decide (EachStep State.step HandsOn s extratoClient),
      (run State.step s extratoClient).map fun u : State 2 1 => decide (∀ p ∈ u.pending, p.op = .accept)))
    (b := (true, .ok true)) (by decide +kernel)
  obtain ⟨hC, hlast⟩ := Prod.mk.inj hrun
  obtain ⟨u, hu, hlast⟩ := exists_of_map_ok hlast
  cases ht : s.step (done 0 5 []) with
  | error e =>
    rw [extratoClient, run, ht] at hu
    cases hu
  | ok t =>
    have hrest := hu
    rw [extratoClient, run_ok s _ _ t ht] at hrest
    exact ⟨s, t, u, hs, run_ok s _ _ t ht, hrest, hu, of_decide_eq_true hC, of_decide_eq_true hlast⟩

/-- It leaves the server at rest. -/
theorem atRest_extratoClient :
    ∃ s u : State 2 1, State.start = .ok s ∧ run State.step s extratoClient = .ok u ∧ AtRest u := by
  obtain ⟨s, t, u, hs, _, _, hu, hC, hlast⟩ := extratoClient_runs
  exact ⟨s, u, hs, hu, (atRest_of_handsOn (by decide) hs extratoClient hC).last hu hlast⟩

/-! ### What is still to be done -/

/-- How many completions a slot takes at most that is with the operation, this one
included. -/
def Op.left : Op → Nat
  | accept => 1
  | read => 4
  | write => 2
  | close => 1
  | dbRead => 3

/-- How many completions the slots take at most that are in use. -/
def State.left (s : State P N) : Nat := (s.pending.map fun p => p.op.left).sum + 3 * s.queue.contents.length

/-- An input is a completion or none. -/
def Input.completions : Input → Nat
  | .completes _ _ => 1
  | .interrupted _ => 0
  | .fails => 0

theorem Op.left_pos (op : Op) : 0 < op.left := by
  cases op <;> decide

theorem Op.left_le (op : Op) : op.left ≤ 4 := by
  cases op <;> decide

theorem left_completed {s : State P N} {k : Nat} {p : Pending P} (hp : s.pending[k]? = some p) :
    s.left = (s.completed k).left + p.op.left := by
  unfold State.left State.completed
  rw [((pending_perm hp).map fun p => p.op.left).sum_eq, List.map_cons, List.sum_cons]
  dsimp only
  omega

theorem left_submit {s t : State P N} (op : Op) {i : Fin P} (hpending : t.pending = s.pending ++ [⟨op, i⟩])
    (hqueue : t.queue = s.queue) : t.left = s.left + op.left := by
  unfold State.left
  rw [hpending, hqueue, List.map_append, List.sum_append]
  simp only [List.map_cons, List.map_nil, List.sum_cons, List.sum_nil]
  omega

/-- A queued slot goes on to an operation. -/
theorem left_turn {s t : State P N} {queue : Queue (Fin P)} (op : Op) {i : Fin P}
    (hcons : s.queue.contents = i :: queue.contents) (hpending : t.pending = s.pending ++ [⟨op, i⟩])
    (hqueue : t.queue = queue) : t.left + 3 = s.left + op.left := by
  unfold State.left
  rw [hpending, hqueue, hcons, List.map_append, List.sum_append, List.length_cons]
  simp only [List.map_cons, List.map_nil, List.sum_cons, List.sum_nil]
  omega

theorem left_getDbconn (s : State P N) : s.getDbconn.2.left = s.left ∧ s.getDbconn.2.accepted = s.accepted := by
  unfold State.getDbconn
  split <;> exact ⟨rfl, rfl⟩

/-- A dispatch leaves no more to be done, and accepts nobody. -/
theorem left_dispatch {s s' : State P N} (h : Consistent s []) {outcomes : Nat → Outcome}
    (hs : s.queuDispatch outcomes = .ok s') : s'.left ≤ s.left ∧ s'.accepted = s.accepted := by
  have hconn : ∀ t : State P N, t.left ≤ s.left ∧ t.accepted = s.accepted →
      t.getDbconn.2.left ≤ s.left ∧ t.getDbconn.2.accepted = s.accepted := by
    intro t ht
    rw [(left_getDbconn t).1, (left_getDbconn t).2]
    exact ht
  have hkept : KeptByTurns fun (_ : Option (Fin N)) (t : State P N) => t.left ≤ s.left ∧ t.accepted = s.accepted := by
    constructor
    · intro c t queue ht hnil hnil'
      have hleft : (t.setQueue queue).left = t.left := by
        unfold State.left State.setQueue
        rw [hnil, hnil']
      exact ⟨hleft.trans_le ht.1, ht.2⟩
    · intro c t queue i response _ ht hcons _ _ _
      have hleft := left_turn (t := t.refuseTurn queue i c response) .write hcons rfl rfl
      have hwrite : Op.write.left = 2 := rfl
      exact ⟨by omega, ht.2⟩
    · intro c t queue i query o _ ht hcons _ _
      have hleft := left_turn (t := t.sendTurn queue i c query o) .dbRead hcons rfl rfl
      have hread : Op.dbRead.left = 3 := rfl
      exact hconn _ ⟨by omega, ht.2⟩
  exact queuDispatch_keeps (Q := fun t => t.left ≤ s.left ∧ t.accepted = s.accepted) hkept (fun _ ht => ht)
    (fun _ _ ht => ht) h (hconn s ⟨le_rfl, rfl⟩) hs

/-- A completion leaves less to be done, but for the connection it accepts. -/
theorem left_handled {s s' : State P N} {c : Completion} {p : Pending P} (hc : Consistent s [p.slot])
    (hs : Handled s c p s') : s'.left + 1 + 5 * s.accepted ≤ s.left + p.op.left + 5 * s'.accepted := by
  have hnext : ∀ {t : State P N} (op : Op), t.pending = s.pending ++ [⟨op, p.slot⟩] → t.queue = s.queue →
      op.left < p.op.left → t.left + 1 + 5 * s.accepted ≤ s.left + p.op.left + 5 * s.accepted := by
    intro t op hpending hqueue hlt
    have hleft := left_submit op hpending hqueue
    omega
  have hpos := p.op.left_pos
  cases hs with
  | failed hresult => omega
  | accepted j hop hresult hfree hne =>
    unfold State.left
    simp only [List.map_append, List.sum_append, List.map_cons, List.map_nil, List.sum_cons, List.sum_nil, hop,
      Op.left]
    omega
  | answered response r hop hresult hno hr hresponse =>
    exact hnext .write rfl rfl (by rw [hop]; decide)
  | queued queue r hop hresult hbuffer hr hpush =>
    obtain ⟨queue', _, hpush', hsub, _⟩ := push_contents hc.sound p.slot
    rw [hpush] at hpush'
    cases hpush'
    have hlength := hsub.length_le
    rw [List.length_append, List.length_singleton] at hlength
    rw [hop]
    unfold State.left
    dsimp only [State.afterRead, State.note, State.setSlot, Op.left]
    omega
  | replied d conn r handler hop hresult hhandler hdbconn hcall => exact hnext .write rfl rfl (by rw [hop]; decide)
  | written hop hresult => exact hnext .close rfl rfl (by rw [hop]; decide)
  | closed hop hresult =>
    show s.left + 1 + 5 * s.accepted ≤ s.left + p.op.left + 5 * s.accepted
    omega

theorem left_step {s s' : State P N} {input : Input} (h : Consistent s []) (hs : s.step input = .ok s') :
    s'.left + input.completions + 5 * s.accepted ≤ s.left + 5 * s'.accepted := by
  rcases step_cases hs with ⟨c, outcomes, t, rfl, ht, hd⟩ | ⟨outcomes, rfl, hd⟩
  · obtain ⟨p, hp, _, hcompleted, hhandled, hcons⟩ := handle_cases h ht
    have hbefore := left_completed hp
    have hhandled' := left_handled hcompleted hhandled
    obtain ⟨hleft, haccepted⟩ := left_dispatch hcons hd
    have hsame : (s.completed c.index).accepted = s.accepted := rfl
    dsimp only [Input.completions]
    omega
  · obtain ⟨hleft, haccepted⟩ := left_dispatch h hd
    dsimp only [Input.completions]
    omega

/-- A slot is in one place at most, and takes four completions there at most. -/
theorem left_le {s : State P N} (h : Consistent s []) : s.left ≤ 4 * P := by
  have hpending : (s.pending.map fun p => p.op.left).sum ≤ s.pending.length * 4 := by
    have hsum := List.sum_le_card_nsmul (s.pending.map fun p => p.op.left) 4 fun n hn => by
      obtain ⟨p, _, rfl⟩ := List.mem_map.mp hn
      exact p.op.left_le
    rwa [List.length_map, smul_eq_mul] at hsum
  have hplaces : (s.places []).length ≤ P := by
    have hcard := h.nodup.length_le_card
    rwa [Fintype.card_fin] at hcard
  have hlength : (s.places []).length = s.pending.length + s.queue.contents.length := by
    rw [State.places, List.append_nil, List.length_append, List.length_map]
  unfold State.left
  omega

/-- No run takes more completions than were left, and five for each connection that
it accepts. -/
theorem left_run {s t : State P N} (h : Consistent s []) {inputs : List Input}
    (ht : run State.step s inputs = .ok t) :
    t.left + (inputs.map Input.completions).sum + 5 * s.accepted ≤ s.left + 5 * t.accepted := by
  have hprice := run_price (fun s : State P N => (s.left : ℤ) - 5 * s.accepted)
    (fun i => (i.completions : ℤ)) (fun _ => 0) (fun s i t => consistent_step)
    (fun s i t h hs => by have := left_step h hs; omega) h ht
  have hcast : (inputs.map fun i => (i.completions : ℤ)).sum = ((inputs.map Input.completions).sum : ℕ) := by
    rw [Nat.cast_list_sum, List.map_map]
    rfl
  have hnone : (inputs.map fun _ => (0 : ℤ)).sum = 0 := by
    simp
  rw [hcast, hnone] at hprice
  omega

/-- **What was accepted is served to its end**: however the completions come, and
whatever fails, a run from any state that is reached takes no more of them than were
left there, of which there are four for each slot at most, and five for each
connection that it accepts. -/
theorem completions_bounded {s t u : State P N} (hs : (State.start : Except Stop (State P N)) = .ok s)
    {inputs more : List Input} (ht : run State.step s inputs = .ok t) (hu : run State.step t more = .ok u) :
    u.left + (more.map Input.completions).sum + 5 * t.accepted ≤ t.left + 5 * u.accepted ∧ t.left ≤ 4 * P := by
  have hcons : Consistent t [] :=
    (throughout_of_all (fun _ _ _ => consistent_step) (consistent_start hs) inputs).last ht
  exact ⟨left_run hcons hu, left_le hcons⟩

/-- The client that reads its extrato takes four completions behind its accept. -/
theorem bounded_extratoClient :
    ∃ s t u : State 2 1, State.start = .ok s ∧ run State.step s (extratoClient.take 1) = .ok t ∧
      run State.step t (extratoClient.drop 1) = .ok u ∧
        (u.left + ((extratoClient.drop 1).map Input.completions).sum + 5 * t.accepted ≤ t.left + 5 * u.accepted ∧
          t.left ≤ 4 * 2) := by
  obtain ⟨s, t, u, hs, ht, hu, _⟩ := extratoClient_runs
  exact ⟨s, t, u, hs, ht, hu, completions_bounded hs ht hu⟩

end Rinha.Server
