import Rinha.Server.Slots

/-! Which of its fatal branches the loop can come to.

An empty queue has no last item, a connection that is released is one of the pool,
and a slot whose reply has come has the function for it: of the fatal branches
only `push_accepting`'s can be reached. It is reached when a connection is
accepted while every slot is in use. -/
namespace Rinha.Server
open Library Request Client

variable {P N : Nat}

/-- The `FATAL3`s that the handling of a completion and the dispatch have, submissions
aside: of `push_accepting`, `queu_push` and `queu_pop`, and `release_dbconn`. The
event switch's has no case here: an `Event` is one of the five. -/
def Fatal : Stop → Prop
  | .noSlot => True
  | .queue _ => True
  | .fault f => f = .fatal
  | _ => False

/-- The turn ends in such a branch, and not because the wait has failed. -/
def FatalTurn (s : State P N) (input : Input) : Prop :=
  input ≠ .fails ∧ ∃ e, s.step input = .error e ∧ Fatal e

/-- A connection is accepted while every slot is in use. -/
def Exhausts (s : State P N) : Input → Prop
  | .completes c _ => 0 ≤ c.result ∧ (∃ p, s.pending[c.index]? = some p ∧ p.op = .accept) ∧
      ∀ i, (s.pool i).ring = true
  | .interrupted _ => False
  | .fails => False

/-- `case EVENT_ACCEPTTING` before it pushes the next accept. -/
def State.accept (s : State P N) (i : Fin P) (result : Int) : State P N :=
  State.pushReading
    {s with client := Function.update s.client i s.accepted, accepted := s.accepted + 1} i result

theorem onAccepted_eq (s : State P N) (i : Fin P) (result : Int) :
    s.onAccepted i result = (s.accept i result).pushAccepting := rfl

theorem accept_ring (s : State P N) (i : Fin P) (result : Int) (j : Fin P) :
    ((s.accept i result).pool j).ring = (s.pool j).ring :=
  ring_update_same (r := {s.pool i with clientFd := result, lastEvent := .reading}) rfl j

/-! ### The parts that cannot fail -/

theorem initReqres_none {s : State P N} : s.initReqres = none ↔ ∀ i, (s.pool i).ring = true := by
  unfold State.initReqres
  cases hfind : (List.finRange P).find? fun i => !(s.pool i).ring with
  | none =>
    refine iff_of_true rfl fun i => ?_
    have hnone := List.find?_eq_none.mp hfind i (List.mem_finRange i)
    simpa using hnone
  | some i =>
    refine iff_of_false (by simp) fun hall => ?_
    have hfree := List.find?_some hfind
    rw [hall i] at hfree
    cases hfree

theorem pushAccepting_cases (s : State P N) :
    ((∀ i, (s.pool i).ring = true) ∧ s.pushAccepting = .error .noSlot) ∨
      ((¬ ∀ i, (s.pool i).ring = true) ∧ ∃ s', s.pushAccepting = .ok s') := by
  rw [← initReqres_none]
  unfold State.pushAccepting
  cases hinit : s.initReqres with
  | none => exact .inl ⟨rfl, rfl⟩
  | some found => exact .inr ⟨by simp, _, rfl⟩

/-- A request that was read is answered or queued. -/
theorem onRead_ok {s : State P N} {i : Fin P} (h : Consistent s [i])
    (hsender : (s.pool i).dbRequestSender = none) (hhandler : (s.pool i).dbResponseHandler = none) :
    ∃ s', s.onRead i = .ok s' := by
  have hring : (s.pool i).ring = true := h.hand i (List.mem_cons_self ..)
  unfold State.onRead
  simp only [State.setSlot_self]
  by_cases hnone : (controller (s.pool i)).dbRequestSender = none
  · rw [if_pos hnone]
    exact ⟨_, rfl⟩
  · rw [if_neg hnone]
    rcases controller_cases (s.pool i) with
      ⟨response, _, _, heq⟩ | ⟨response, _, d, _, _, toExit, heq⟩ | ⟨sender, d, heq, hw⟩
    · rw [heq] at hnone
      exact absurd hsender hnone
    · rw [heq] at hnone
      exact absurd hsender hnone
    · have hqueued : QueuedSlot (controller (s.pool i)) :=
        ⟨by rw [heq]; exact hring, hw, by rw [heq]; exact hhandler⟩
      obtain ⟨queue, hpush, _⟩ := (h.setSlot hqueued.ring).queuPush (by rw [State.setSlot_self]; exact hqueued)
      rw [hpush]
      exact ⟨_, rfl⟩

/-- The function for the reply faults on what the database sends, and on nothing else. -/
theorem handler_error {κ : Type*} {handler : Handler} {polls : List Poll} {reqres : ReqRes κ} {conn : PGconn}
    {f : Fault} (h : handler.call polls reqres conn = .error f) : f = .blocked ∨ f = .overread := by
  cases hwait : waitDb polls with
  | error g =>
    rw [handler_waitError handler hwait] at h
    cases h
    exact .inl (waitDb_error hwait)
  | ok ret =>
    rcases waitDb_cases hwait with rfl | rfl
    · rw [handler_waitFails handler hwait] at h
      cases h
    rw [handler_reads handler hwait] at h
    split at h
    · cases h
    · cases h
    · split at h
      · cases h
      · cases h
        exact .inr rfl

/-- A reply that has come is answered with, or is one that faults. -/
theorem onDbResponding_error {s : State P N} {i : Fin P} {polls : List Poll} {e : Stop}
    (hslot : SlotFor .dbRead (s.pool i)) (h : s.onDbResponding i polls = .error e) :
    e = .fault .blocked ∨ e = .fault .overread := by
  obtain ⟨_, _, hhandler, hdbconn⟩ := hslot
  obtain ⟨handler, hhandler⟩ := Option.isSome_iff_exists.mp hhandler
  obtain ⟨d, hdbconn⟩ := Option.isSome_iff_exists.mp hdbconn
  unfold State.onDbResponding at h
  rw [hhandler, hdbconn] at h
  simp only at h
  split at h
  · rename_i f hf
    cases h
    rcases handler_error hf with rfl | rfl
    · exact .inl rfl
    · exact .inr rfl
  · rename_i r conn hcall
    have hr : r.dbconn = some d := by
      have hreported : ∀ res, Reported (s.pool i) res r → r.dbconn = some d := by
        intro res hrep
        cases hrep with
        | failed => exact hdbconn
        | value => exact hdbconn
      rcases handler_cases hcall with ⟨_, _, hrep⟩ | ⟨_, _, hrep⟩
      · exact hreported _ hrep
      · exact hreported _ hrep
    rw [hr] at h
    simp only [State.releaseDbconn] at h
    cases h

/-! ### A turn -/

theorem not_fatal_blocked : ¬ Fatal (.fault .blocked) := fun h => by cases h

theorem not_fatal_overread : ¬ Fatal (.fault .overread) := fun h => by cases h

/-- The part of the `switch` for an accepted connection needs a slot for the next one. -/
theorem onAccepted_fatal (s : State P N) (i : Fin P) (result : Int) :
    (∃ e, s.onAccepted i result = .error e ∧ Fatal e) ↔ ∀ j, (s.pool j).ring = true := by
  rw [onAccepted_eq]
  rcases pushAccepting_cases (s.accept i result) with ⟨hall, hpush⟩ | ⟨hfree, s', hpush⟩
  · rw [hpush]
    exact iff_of_true ⟨_, rfl, trivial⟩ fun j => (accept_ring s i result j).symm.trans (hall j)
  · rw [hpush]
    refine iff_of_false (fun hex => ?_) fun hall => hfree fun j => (accept_ring s i result j).trans (hall j)
    obtain ⟨e, herror, _⟩ := hex
    cases herror

/-- Of the events only an accepted connection can end in a fatal branch. -/
theorem onEvent_fatal {s : State P N} {c : Completion} {p : Pending P} (h : Consistent (s.fill c p) [p.slot])
    (hslot : SlotFor p.op (s.pool p.slot)) (hresult : 0 ≤ c.result) :
    (∃ e, (s.fill c p).onEvent p.slot c = .error e ∧ Fatal e) ↔
      p.op = .accept ∧ ∀ i, (s.pool i).ring = true := by
  have hfill : p.op ≠ .read → s.fill c p = s := fun hne => if_neg fun hread => hne hread.1
  have hnone : ∀ {x : Except Stop (State P N)}, (∃ s', x = .ok s') → ¬ ∃ e, x = .error e ∧ Fatal e := by
    intro x hok hex
    obtain ⟨s', rfl⟩ := hok
    obtain ⟨e, herror, _⟩ := hex
    cases herror
  unfold State.onEvent
  cases hop : p.op with
  | accept =>
    rw [hfill (by simp [hop])]
    rw [hop] at hslot
    replace hslot : s.pool p.slot = {ReqRes.zero with ring := true} := hslot
    simp only [show (s.pool p.slot).lastEvent = .acceptting by rw [hslot]; rfl, true_and]
    exact onAccepted_fatal s p.slot c.result
  | read =>
    have hread : s.fill c p = s.afterRead p.slot c.data := if_pos ⟨hop, hresult⟩
    rw [hop] at hslot
    obtain ⟨fd, hfd⟩ := hslot
    rw [hread] at h ⊢
    have hpool : (s.afterRead p.slot c.data).pool p.slot =
        {s.pool p.slot with buffer := memcpy (s.pool p.slot).buffer c.data} := by
      simp only [State.afterRead, State.note, State.setSlot_self]
    have hsender : ((s.afterRead p.slot c.data).pool p.slot).dbRequestSender = none := by rw [hpool, hfd]; rfl
    have hhandler : ((s.afterRead p.slot c.data).pool p.slot).dbResponseHandler = none := by
      rw [hpool, hfd]; rfl
    simp only [show ((s.afterRead p.slot c.data).pool p.slot).lastEvent = .reading by rw [hpool, hfd]]
    exact iff_of_false (hnone (onRead_ok h hsender hhandler)) (fun h => by cases h.1)
  | write =>
    rw [hfill (by simp [hop])]
    rw [hop] at hslot
    simp only [hslot.2]
    exact iff_of_false (hnone ⟨_, rfl⟩) (fun h => by cases h.1)
  | close =>
    rw [hfill (by simp [hop])]
    rw [hop] at hslot
    simp only [hslot.2]
    exact iff_of_false (hnone ⟨_, rfl⟩) (fun h => by cases h.1)
  | dbRead =>
    rw [hfill (by simp [hop])]
    rw [hop] at hslot
    simp only [hslot.2.1]
    refine iff_of_false (fun hex => ?_) (fun h => by cases h.1)
    obtain ⟨e, herror, hfatal⟩ := hex
    rcases onDbResponding_error hslot herror with rfl | rfl
    · exact not_fatal_blocked hfatal
    · exact not_fatal_overread hfatal

theorem Consistent.fill {s : State P N} {c : Completion} {p : Pending P} (h : Consistent s [p.slot]) :
    Consistent (s.fill c p) [p.slot] := by
  unfold State.fill
  split
  · have hring : (s.pool p.slot).ring = true := h.hand p.slot (List.mem_cons_self ..)
    exact (h.setSlot (r := {s.pool p.slot with buffer := memcpy (s.pool p.slot).buffer c.data}) hring).congr
      rfl rfl rfl
  · exact h

theorem handle_fatal {s : State P N} (h : Consistent s []) (c : Completion) (outcomes : Nat → Outcome) :
    (∃ e, s.handle c = .error e ∧ Fatal e) ↔ Exhausts s (.completes c outcomes) := by
  have hother : ∀ {e}, s.handle c = .error e → ¬ Fatal e → ¬ ∃ e', s.handle c = .error e' ∧ Fatal e' := by
    intro e he hnot hex
    obtain ⟨e', he', hfatal⟩ := hex
    cases he.symm.trans he'
    exact hnot hfatal
  cases hp : s.pending[c.index]? with
  | none =>
    have hhandle : s.handle c = .error .notPending := by
      unfold State.handle
      rw [hp]
    refine iff_of_false (hother hhandle fun h => h) fun hexhausts => ?_
    obtain ⟨_, ⟨p, hp', _⟩, _⟩ := hexhausts
    cases hp.symm.trans hp'
  | some p =>
    have hexhausts : Exhausts s (.completes c outcomes) ↔
        0 ≤ c.result ∧ p.op = .accept ∧ ∀ i, (s.pool i).ring = true := by
      show (_ ∧ (∃ q, s.pending[c.index]? = some q ∧ _) ∧ _) ↔ _
      simp only [hp, Option.some.injEq, exists_eq_left']
    rw [hexhausts]
    cases hpossible : c.possible p.op with
    | false =>
      have hhandle : s.handle c = .error .notPending := by
        unfold State.handle
        simp only [hp, hpossible]
        rfl
      refine iff_of_false (hother hhandle fun h => h) fun hall => ?_
      rw [hall.2.1] at hpossible
      cases hpossible
    | true =>
      obtain ⟨hslot, hcomplete⟩ : _ ∧ Consistent (s.completed c.index) [p.slot] := h.complete hp
      rw [handle_eq hp hpossible]
      by_cases hresult : c.result < 0
      · rw [if_pos hresult]
        refine iff_of_false (fun hex => ?_) fun hall => absurd hall.1 (not_le.mpr hresult)
        obtain ⟨e, herror, hfatal⟩ := hex
        simp only at herror
        split at herror
        · cases herror
          exact hfatal
        · cases herror
      · have hevent := onEvent_fatal (s := s.completed c.index) hcomplete.fill hslot (not_lt.mp hresult)
        rw [if_neg hresult]
        rw [show (∀ i, (s.pool i).ring = true) ↔ ∀ i, ((s.completed c.index).pool i).ring = true from Iff.rfl,
          ← hevent]
        cases honEvent : ((s.completed c.index).fill c p).onEvent p.slot c with
        | error e =>
          simp only [Except.error.injEq, exists_eq_left', iff_and_self]
          exact fun _ => not_lt.mp hresult
        | ok t =>
          simp only [reduceCtorEq, false_and, exists_false, and_false, iff_false, not_exists, not_and]
          intro e herror hfatal
          split at herror
          · cases herror
            exact hfatal
          · cases herror

/-- A turn ends in a fatal branch exactly when it accepts a connection with every slot in use. -/
theorem fatalTurn_iff {s : State P N} (h : Consistent s []) (input : Input) :
    FatalTurn s input ↔ Exhausts s input := by
  unfold FatalTurn
  cases input with
  | completes c outcomes =>
    rw [← handle_fatal h c outcomes]
    simp only [ne_eq, reduceCtorEq, not_false_eq_true, true_and, State.step]
    cases hhandle : s.handle c with
    | error e => exact Iff.rfl
    | ok t =>
      obtain ⟨_, _, _, _, _, hcons⟩ := handle_cases h hhandle
      obtain ⟨u, hu, _⟩ := consistent_dispatch hcons outcomes
      simp only [hu, reduceCtorEq, false_and, exists_false]
  | interrupted outcomes =>
    obtain ⟨u, hu, _⟩ := consistent_dispatch h outcomes
    simp only [State.step, hu, reduceCtorEq, false_and, exists_false, and_false]
    exact Iff.rfl
  | fails => exact iff_of_false (fun h => h.1 rfl) fun h => h

/-! ### Every run -/

/-- No fatal branch is come to: not before the first wait, and not in a turn of the run. -/
def NeverFatal (P N : Nat) (inputs : List Input) : Prop :=
  (∀ e, (State.start : Except Stop (State P N)) = .error e → ¬ Fatal e) ∧
    ∀ s : State P N, State.start = .ok s →
      EachInput State.step (fun s input => ¬ FatalTurn s input) s inputs

/-- The loop comes to wait for the first time when there is a slot. -/
theorem start_iff : (0 < P ∧ ∃ s : State P N, State.start = .ok s) ∨
    (P = 0 ∧ (State.start : Except Stop (State P N)) = .error .noSlot) := by
  unfold State.start
  rcases pushAccepting_cases (State.zero : State P N) with ⟨hall, hpush⟩ | ⟨hfree, s, hpush⟩
  · refine .inr ⟨?_, by rw [hpush]⟩
    by_contra hP
    have hring := hall ⟨0, Nat.pos_of_ne_zero hP⟩
    cases hring
  · refine .inl ⟨?_, ?_⟩
    · by_contra hP
      exact hfree fun i => absurd i.isLt (by omega)
    · obtain ⟨_, _, hcons, _⟩ := consistent_zero.pushAccepting hpush
      obtain ⟨t, ht, _⟩ := consistent_dispatch hcons fun _ => ⟨false, []⟩
      rw [hpush]
      exact ⟨t, ht⟩

/-- For every size of the pools and every run: no fatal branch is come to exactly
when there is a slot and no connection is accepted while every slot is in use. -/
theorem neverFatal_iff (P N : Nat) (inputs : List Input) :
    NeverFatal P N inputs ↔ 0 < P ∧ ∀ s : State P N, State.start = .ok s →
      EachInput State.step (fun s input => ¬ Exhausts s input) s inputs := by
  have hrun : ∀ s : State P N, State.start = .ok s →
      (EachInput State.step (fun s input => ¬ FatalTurn s input) s inputs ↔
        EachInput State.step (fun s input => ¬ Exhausts s input) s inputs) := by
    intro s hs
    exact eachInput_iff (I := fun s => Consistent s []) (fun _ _ _ => consistent_step)
      (fun s input h => not_congr (fatalTurn_iff h input)) (consistent_start hs)
  rcases start_iff (P := P) (N := N) with ⟨hP, s, hs⟩ | ⟨hP, hs⟩
  · constructor
    · intro h
      exact ⟨hP, fun t ht => (hrun t ht).mp (h.2 t ht)⟩
    · intro h
      refine ⟨fun e he => ?_, fun t ht => (hrun t ht).mpr (h.2 t ht)⟩
      cases hs.symm.trans he
  · constructor
    · intro h
      exact absurd trivial (h.1 .noSlot hs)
    · intro h
      exact absurd h.1 (by omega)

/-- As many connections as there are slots, which send nothing. -/
def idleClients : List Input := [done 0 5 [], done 1 6 []]

/-- When the last of them is accepted there is no slot for the next accept. -/
theorem idle_clients_exit :
    ∃ s t : State 2 1, State.start = .ok s ∧ run State.step s [done 0 5 []] = .ok t ∧
      (t.step (done 1 6 [])).map (fun _ => ()) = .error .noSlot ∧ ¬ NeverFatal 2 1 idleClients := by
  obtain ⟨s, t, hs, ht, hstep⟩ := exists_run_ok State.step (State.start : Except Stop (State 2 1)) [done 0 5 []]
    (fun t => (t.step (done 1 6 [])).map fun _ => ()) (.error .noSlot) (by decide +kernel)
  refine ⟨s, t, hs, ht, hstep, fun h => ?_⟩
  have hfirst : s.step (done 0 5 []) = .ok t := by
    rw [run] at ht
    split at ht
    · rename_i u hu
      cases ht
      exact hu
    · cases ht
  have hsecond := (((h.2 s hs).2 t hfirst).1)
  cases hlast : t.step (done 1 6 []) with
  | ok u =>
    rw [hlast] at hstep
    cases hstep
  | error e =>
    rw [hlast] at hstep
    cases hstep
    exact hsecond ⟨(fun heq => by cases heq), _, hlast, trivial⟩

end Rinha.Server
