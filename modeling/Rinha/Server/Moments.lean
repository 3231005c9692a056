import Rinha.Server.Dispatching

/-! The moments of a turn.

A turn of the loop is a step of the model; the functions that it calls meet the
slots in between. `During` is every moment of a turn at which one of them has a
slot: the wait, the completion, what its event leaves, and each turn of the loop of
`queu_dispatch`. The slots after a turn are those of its last moment
(`exists_during`). Nothing is assumed of the state. -/
namespace Rinha.Server
open Library Request Client

variable {P N : Nat}

namespace State

/-! ### A completion -/

/-- What the function for an event does, when it returns. -/
inductive Reacted (s : State P N) (i : Fin P) (c : Completion) : State P N → Prop where
  /-- The connection is to be read, and another slot taken for the next one. -/
  | accepted {t u : State P N}
      (ht : t = {s with client := Function.update s.client i s.accepted, accepted := s.accepted + 1})
      (hu : (t.pushReading i c.result).pushAccepting = .ok u) : Reacted s i c u
  | answered (hnone : (controller (s.pool i)).dbRequestSender = none) :
      Reacted s i c ((s.setSlot i (controller (s.pool i))).pushWriting i none)
  | queued (queue : Queue (Fin P)) (hsome : (controller (s.pool i)).dbRequestSender ≠ none) :
      Reacted s i c ((s.setSlot i (controller (s.pool i))).setQueue queue)
  | replied {handler : Handler} {d d' : Fin N} {r : ReqRes (Fin N)} {conn : PGconn}
      (hevent : (s.pool i).lastEvent = .dbResponding) (hhandler : (s.pool i).dbResponseHandler = some handler)
      (hdbconn : (s.pool i).dbconn = some d) (hcall : handler.call c.polls (s.pool i) (s.conns d) = .ok (r, conn)) :
      Reacted s i c ((((s.setSlot i r).setConn d conn).setUsed d' false).pushWriting i (s.conns d))
  | written : Reacted s i c (s.pushCloseConnection i)
  | closed : Reacted s i c (s.deinitReqres i)

theorem onEvent_reacted {s t : State P N} {i : Fin P} {c : Completion} (hs : s.onEvent i c = .ok t) :
    Reacted s i c t := by
  unfold State.onEvent at hs
  split at hs
  · exact .accepted rfl hs
  · unfold State.onRead at hs
    simp only [setSlot_self] at hs
    split at hs
    · rename_i hnone
      cases hs
      exact .answered hnone
    · rename_i hsome
      split at hs
      · cases hs
      · rename_i queue _
        cases hs
        exact .queued queue hsome
  · rename_i hevent
    unfold State.onDbResponding at hs
    split at hs
    · cases hs
    · cases hs
    · rename_i hhandler hdbconn
      split at hs
      · cases hs
      · rename_i r conn hcall
        unfold State.releaseDbconn at hs
        cases hr : r.dbconn with
        | none =>
          rw [hr] at hs
          cases hs
        | some d' =>
          rw [hr] at hs
          cases hs
          exact .replied hevent hhandler hdbconn hcall
  · cases hs
    exact .written
  · cases hs
    exact .closed

/-- The moments of a completion: its bytes are in the buffer, and its event's
function has returned. -/
inductive InHandle (s : State P N) (c : Completion) : State P N → Prop where
  | completed {p : Pending P} (hp : s.pending[c.index]? = some p) (hpossible : c.possible p.op = true) :
      InHandle s c ((s.completed c.index).fill c p)
  | reacted {p : Pending P} {t : State P N} (hp : s.pending[c.index]? = some p)
      (hpossible : c.possible p.op = true) (hresult : 0 ≤ c.result)
      (ht : ((s.completed c.index).fill c p).onEvent p.slot c = .ok t) : InHandle s c t

theorem handle_inHandle {s t : State P N} {c : Completion} (ht : s.handle c = .ok t) : InHandle s c t := by
  cases hp : s.pending[c.index]? with
  | none =>
    unfold State.handle at ht
    rw [hp] at ht
    cases ht
  | some p =>
    cases hpossible : c.possible p.op with
    | false =>
      unfold State.handle at ht
      simp only [hp, hpossible] at ht
      cases ht
    | true =>
      rw [handle_eq hp hpossible] at ht
      split at ht
      · cases ht
      · rename_i u hu
        split at ht
        · cases ht
        · cases ht
          split at hu
          · cases hu
            exact .completed hp hpossible
          · rename_i hresult
            exact .reacted hp hpossible (not_lt.mp hresult) hu

/-! ### The dispatch -/

/-- What a turn of the dispatch does, when it returns: the command's function has
the slot, and the slot is answered or waits. -/
theorem dispatchTurn_called {s t : State P N} {i : Fin P} {c : Fin N} {o : Outcome}
    (hs : s.dispatchTurn i c o = .ok t) :
    ∃ sender r conn, (s.pool i).dbRequestSender = some sender ∧
      sender.call ⟨s.sent, o.sent, o.results⟩ ((s.pool i).setDbconn c) (s.conns c) = .ok (r, conn) ∧
      ((r.dbResponseHandler = none ∧
          t = ((((s.setSlot i r).setConn c conn).noteSent i (s.conns c) conn).setUsed c false).pushWriting i none) ∨
        (r.dbResponseHandler ≠ none ∧
          t = (((s.setSlot i r).setConn c conn).noteSent i (s.conns c) conn).pushDbResponding i)) := by
  unfold State.dispatchTurn at hs
  split at hs
  · cases hs
  rename_i u hcall
  unfold State.callSender at hcall
  simp only at hcall
  split at hcall
  · cases hcall
  rename_i sender hsender
  split at hcall
  · cases hcall
  rename_i r conn hr
  cases hcall
  have hself : (((s.setSlot i r).setConn c conn).noteSent i (s.conns c) conn).pool i = r := by
    rw [(noteSent_frame ..).1]
    exact s.setSlot_self i r
  rw [hself] at hs
  refine ⟨sender, r, conn, hsender, hr, ?_⟩
  split at hs
  · rename_i hnone
    cases hs
    exact .inl ⟨hnone, rfl⟩
  · rename_i hsome
    cases hs
    exact .inr ⟨hsome, rfl⟩

/-- The states in which the loop of `queu_dispatch` looks for the next slot, with
the number of the turn and the connection in hand. -/
inductive InDispatch (outcomes : Nat → Outcome) (s : State P N) : Nat → Option (Fin N) → State P N → Prop where
  | begins : InDispatch outcomes s 0 s.getDbconn.1 s.getDbconn.2
  | answered {k : Nat} {c : Fin N} {t u : State P N} {i : Fin P} {queue : Queue (Fin P)}
      (ht : InDispatch outcomes s k (some c) t) (hpop : t.queue.queuPop = .ok (some i, queue))
      (hturn : (t.setQueue queue).dispatchTurn i c (outcomes k) = .ok u)
      (hnone : (u.pool i).dbResponseHandler = none) : InDispatch outcomes s (k + 1) (some c) u
  | waits {k : Nat} {c : Fin N} {t u : State P N} {i : Fin P} {queue : Queue (Fin P)}
      (ht : InDispatch outcomes s k (some c) t) (hpop : t.queue.queuPop = .ok (some i, queue))
      (hturn : (t.setQueue queue).dispatchTurn i c (outcomes k) = .ok u)
      (hsome : (u.pool i).dbResponseHandler ≠ none) :
      InDispatch outcomes s (k + 1) u.getDbconn.1 u.getDbconn.2

/-- What the parts of a dispatch keep is so in each of its turns. -/
theorem InDispatch.rule {I : State P N → Prop} (hdbconn : ∀ t, I t → I t.getDbconn.2)
    (hqueue : ∀ t queue, I t → I (t.setQueue queue))
    (hturn : ∀ t i c o t', I t → t.dispatchTurn i c o = .ok t' → I t') {s t : State P N} {outcomes : Nat → Outcome}
    {k : Nat} {hand : Option (Fin N)} (hs : I s) (ht : InDispatch outcomes s k hand t) : I t := by
  induction ht with
  | begins => exact hdbconn s hs
  | answered _ _ hdispatched _ ih => exact hturn _ _ _ _ _ (hqueue _ _ ih) hdispatched
  | waits _ _ hdispatched _ ih => exact hdbconn _ (hturn _ _ _ _ _ (hqueue _ _ ih) hdispatched)

/-- The loop ends in such a state, but for the queue and the connections used. -/
theorem inDispatch_of_loop {s t t' : State P N} {outcomes : Nat → Outcome} {fuel k : Nat}
    {hand hand' : Option (Fin N)} (ht : InDispatch outcomes s k hand t)
    (hloop : dispatchLoop outcomes fuel k hand t = .ok (hand', t')) :
    ∃ k' u, InDispatch outcomes s k' hand' u ∧ t'.pool = u.pool := by
  induction fuel generalizing k hand t with
  | zero =>
    cases hand with
    | none =>
      cases hloop
      exact ⟨k, _, ht, rfl⟩
    | some c => cases hloop
  | succ fuel ih =>
    cases hand with
    | none =>
      cases hloop
      exact ⟨k, _, ht, rfl⟩
    | some c =>
      cases hpop : t.queue.queuPop with
      | error f =>
        rw [dispatchLoop, hpop] at hloop
        cases hloop
      | ok popped =>
        obtain ⟨found, queue⟩ := popped
        cases found with
        | none =>
          rw [dispatchLoop, hpop] at hloop
          cases hloop
          exact ⟨k, _, ht, rfl⟩
        | some i =>
          rw [dispatchLoop_turn hpop] at hloop
          split at hloop
          · cases hloop
          · rename_i u hturn
            split at hloop
            · rename_i hnone
              exact ih (.answered ht hpop hturn hnone) hloop
            · rename_i hsome
              exact ih (.waits ht hpop hturn hsome) hloop

theorem inDispatch_of_dispatch {s s' : State P N} {outcomes : Nat → Outcome}
    (hs : s.queuDispatch outcomes = .ok s') : ∃ k hand t, InDispatch outcomes s k hand t ∧ s'.pool = t.pool := by
  unfold State.queuDispatch at hs
  simp only at hs
  split at hs
  · cases hs
  · rename_i c t hloop
    obtain ⟨k, u, hu, hpool⟩ := inDispatch_of_loop .begins hloop
    cases hs
    exact ⟨k, some c, u, hu, hpool⟩
  · rename_i t hloop
    obtain ⟨k, u, hu, hpool⟩ := inDispatch_of_loop .begins hloop
    cases hs
    exact ⟨k, none, u, hu, hpool⟩

/-! ### A turn -/

/-- The moments of a turn at which a function has a slot. -/
inductive During (s : State P N) : Input → State P N → Prop where
  | waits (input : Input) : During s input s
  | handles {c : Completion} {outcomes : Nat → Outcome} {u : State P N} (hu : InHandle s c u) :
      During s (.completes c outcomes) u
  | dispatches {c : Completion} {outcomes : Nat → Outcome} {t u : State P N} {k : Nat} {hand : Option (Fin N)}
      (ht : s.handle c = .ok t) (hu : InDispatch outcomes t k hand u) : During s (.completes c outcomes) u
  | interrupted {outcomes : Nat → Outcome} {u : State P N} {k : Nat} {hand : Option (Fin N)}
      (hu : InDispatch outcomes s k hand u) : During s (.interrupted outcomes) u

/-- A turn leaves the slots as its last moment has them. -/
theorem exists_during {s s' : State P N} {input : Input} (hs : s.step input = .ok s') :
    ∃ u, During s input u ∧ s'.pool = u.pool := by
  rcases step_cases hs with ⟨c, outcomes, t, rfl, ht, hd⟩ | ⟨outcomes, rfl, hd⟩
  · obtain ⟨k, hand, u, hu, hpool⟩ := inDispatch_of_dispatch hd
    exact ⟨u, .dispatches ht hu, hpool⟩
  · obtain ⟨k, hand, u, hu, hpool⟩ := inDispatch_of_dispatch hd
    exact ⟨u, .interrupted hu, hpool⟩

end State

end Rinha.Server
