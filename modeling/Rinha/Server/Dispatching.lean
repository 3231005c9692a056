import Rinha.Server.Ownership

/-! What becomes of a queued request when its turn comes.

`PQsendQuery` returns 0 for a command it has not dispatched, and only a negative
result is taken for a failure. So a request whose command is refused gets the
function for the reply all the same, and waits for a reply that will not come. -/
namespace Rinha.Server
open Library Request Client

variable {P N : Nat}

/-- The state with this queue. -/
def State.setQueue (s : State P N) (queue : Queue (Fin P)) : State P N := {s with queue := queue}

/-- One turn of the loop of `queu_dispatch`, for the slot taken from the queue and
the connection in hand. -/
def State.dispatchTurn (s : State P N) (i : Fin P) (c : Fin N) (o : Outcome) : Except Stop (State P N) :=
  match s.callSender i c o with
  | .error e => .error e
  | .ok t =>
    if (t.pool i).dbResponseHandler = none then .ok ((t.setUsed c false).pushWriting i none)
    else .ok (t.pushDbResponding i)

theorem noteSent_frame (s : State P N) (i : Fin P) (before after : PGconn) :
    (s.noteSent i before after).pool = s.pool ∧ (s.noteSent i before after).queue = s.queue ∧
      (s.noteSent i before after).pending = s.pending := by
  unfold State.noteSent
  split
  · exact ⟨rfl, rfl, rfl⟩
  · exact ⟨rfl, rfl, rfl⟩

/-- The loop is such a turn and the loop again: with the connection, if the request
was answered, and else with the next one that is free. -/
theorem dispatchLoop_turn {s : State P N} {i : Fin P} {queue : Queue (Fin P)}
    (hpop : s.queue.queuPop = .ok (some i, queue)) (outcomes : Nat → Outcome) (fuel k : Nat) (c : Fin N) :
    State.dispatchLoop outcomes (fuel + 1) k (some c) s =
      match (s.setQueue queue).dispatchTurn i c (outcomes k) with
      | .error e => .error e
      | .ok t =>
        if (t.pool i).dbResponseHandler = none then State.dispatchLoop outcomes fuel (k + 1) (some c) t
        else State.dispatchLoop outcomes fuel (k + 1) t.getDbconn.1 t.getDbconn.2 := by
  rw [State.dispatchLoop, hpop]
  unfold State.dispatchTurn State.setQueue
  cases hcall : State.callSender {s with queue := queue} i c (outcomes k) with
  | error e => simp only [hcall]
  | ok t =>
    simp only [hcall]
    by_cases hnone : (t.pool i).dbResponseHandler = none
    · have hwriting : (((t.setUsed c false).pushWriting i none).pool i).dbResponseHandler = none := by
        simp only [State.pushWriting, State.note, State.submit, State.setSlot_self]
        exact hnone
      rw [if_pos hnone, if_pos hnone]
      exact (if_pos hwriting).symm
    · have hwaiting : ((t.pushDbResponding i).pool i).dbResponseHandler ≠ none := by
        simp only [State.pushDbResponding, State.submit, State.setSlot_self]
        exact hnone
      rw [if_neg hnone, if_neg hnone]
      exact (if_neg hwaiting).symm

/-- A turn answers a request that has no command, and sends the command of another. -/
theorem dispatchTurn_cases {s : State P N} {i : Fin P} (hq : QueuedSlot (s.pool i)) (c : Fin N) (o : Outcome) :
    (queryOf (s.pool i).buffer = none ∧ ∃ response, Refusal response ∧
        s.dispatchTurn i c o = .ok (s.refuseTurn s.queue i c response)) ∨
      ∃ query, queryOf (s.pool i).buffer = some query ∧
        s.dispatchTurn i c o = .ok (s.sendTurn s.queue i c query o) := by
  unfold State.dispatchTurn
  rcases callSender_cases hq c o with ⟨hnone, response, hr, hcall⟩ | ⟨query, hquery, hcall⟩
  · have hhandler : ((s.setSlot i (declined (s.pool i) c response)).pool i).dbResponseHandler = none := by
      rw [State.setSlot_self]
      exact hq.noHandler
    refine .inl ⟨hnone, response, hr, ?_⟩
    simp only [hcall]
    rw [if_pos hhandler]
    exact congrArg Except.ok (refuseTurn_eq s s.queue i c response)
  · have hturn := sendTurn_eq s s.queue i c query o
    refine .inr ⟨query, hquery, ?_⟩
    simp only [hcall]
    rw [if_neg ?_]
    · exact congrArg Except.ok hturn
    · intro hnone
      have hpool := congrArg (fun t : State P N => (t.pool i).dbResponseHandler) hturn
      simp only [State.pushDbResponding, State.submit, State.setSlot_self, State.sendTurn_self, hnone] at hpool
      cases hpool

/-! ### Refused commands -/

/-- The request has a command, and `PQsendQuery` returns 1 for it on this connection. -/
def Dispatched (s : State P N) (i : Fin P) (c : Fin N) (o : Outcome) : Prop :=
  ∃ query, queryOf (s.pool i).buffer = some query ∧
    (pqSendQuery ⟨s.sent, o.sent, o.results⟩ query (s.conns c)).1 = 1

/-- After its turn the request has the function for the reply, and waits for it,
exactly when its command was dispatched; a request whose command was not is
answered with a 500, and its connection released. -/
structure Settled (s t : State P N) (i : Fin P) (c : Fin N) (o : Outcome) : Prop where
  handler : (t.pool i).dbResponseHandler.isSome = true ↔ Dispatched s i c o
  waits : ⟨.dbRead, i⟩ ∈ t.pending ↔ Dispatched s i c o
  answered : queryOf (s.pool i).buffer ≠ none → ¬ Dispatched s i c o →
    status (t.pool i).buffer = bytes "500" ∧ ⟨.write, i⟩ ∈ t.pending ∧ t.used c = false

/-- The turn ends, and settles the request. -/
def Settles (s : State P N) (i : Fin P) (c : Fin N) (o : Outcome) : Prop :=
  ∃ t, s.dispatchTurn i c o = .ok t ∧ Settled s t i c o

theorem dispatched_iff {s : State P N} {i : Fin P} {c : Fin N} {o : Outcome} {query : Query}
    (hquery : queryOf (s.pool i).buffer = some query) : Dispatched s i c o ↔ s.Sends c o := by
  unfold Dispatched State.Sends
  simp only [hquery, Option.some.injEq, exists_eq_left']
  unfold pqSendQuery
  cases s.conns c with
  | some command => simp
  | none => cases o.sent <;> simp

theorem not_dispatched {s : State P N} {i : Fin P} {c : Fin N} {o : Outcome}
    (hnone : queryOf (s.pool i).buffer = none) : ¬ Dispatched s i c o := by
  intro h
  obtain ⟨query, hquery, _⟩ := h
  rw [hnone] at hquery
  cases hquery

theorem sendTurn_handler (s : State P N) (i : Fin P) (c : Fin N) (query : Query) (o : Outcome) :
    ((s.sendTurn s.queue i c query o).pool i).dbResponseHandler.isSome = true := by
  rw [State.sendTurn_self]
  rfl

/-- A request with a command is settled only if that is sent. -/
theorem sends_of_settles {s : State P N} {i : Fin P} {c : Fin N} {o : Outcome} {query : Query}
    (hq : QueuedSlot (s.pool i)) (hquery : queryOf (s.pool i).buffer = some query)
    (h : Settles s i c o) : s.Sends c o := by
  obtain ⟨t, ht, hsettled⟩ := h
  rcases dispatchTurn_cases hq c o with ⟨hnone, _⟩ | ⟨query', _, hturn⟩
  · cases hquery.symm.trans hnone
  · rw [hturn] at ht
    cases ht
    exact (dispatched_iff hquery).mp (hsettled.handler.mp (sendTurn_handler s i c query' o))

/-- The first of the queued slots, as it is taken in hand. -/
theorem queuPop_first {s : State P N} (h : Consistent s []) {i : Fin P} {queue : Queue (Fin P)}
    (hpop : s.queue.queuPop = .ok (some i, queue)) :
    Consistent (s.setQueue queue) [i] ∧ QueuedSlot (s.pool i) := by
  obtain ⟨queue', ⟨_, _, hpop', _⟩ | ⟨j, _, hpop', hq, hcons⟩⟩ := h.queuPop
  · cases hpop.symm.trans hpop'
  · cases hpop.symm.trans hpop'
    exact ⟨hcons, hq⟩

/-- For every queued request, connection and outcome: the request is settled exactly
when it has no command, or its command is not refused: the connection is idle and
libpq can send it. -/
theorem settles_iff {s : State P N} (h : Consistent s []) {i : Fin P} {queue : Queue (Fin P)}
    (hpop : s.queue.queuPop = .ok (some i, queue)) (c : Fin N) (o : Outcome) :
    Settles (s.setQueue queue) i c o ↔ queryOf (s.pool i).buffer = none ∨ s.Sends c o := by
  obtain ⟨hcons, hq⟩ := queuPop_first h hpop
  have hnotWaiting : ⟨.dbRead, i⟩ ∉ s.pending := fun hmem => hcons.not_pending hmem rfl
  rcases dispatchTurn_cases (s := s.setQueue queue) hq c o with
    ⟨hnone, response, hr, hturn⟩ | ⟨query, hquery, hturn⟩
  · refine iff_of_true ⟨_, hturn, ?_⟩ (.inl hnone)
    have hnot : ¬ Dispatched (s.setQueue queue) i c o := not_dispatched hnone
    constructor
    · refine iff_of_false ?_ hnot
      simp only [State.refuseTurn, Function.update_self]
      show ¬ (s.pool i).dbResponseHandler.isSome = true
      rw [hq.noHandler]
      decide
    · refine iff_of_false (fun hmem => ?_) hnot
      rcases List.mem_append.mp hmem with hmem | hmem
      · exact hnotWaiting hmem
      · cases List.mem_singleton.mp hmem
    · exact fun hsome => absurd hnone hsome
  · replace hquery : queryOf (s.pool i).buffer = some query := hquery
    have hdispatched : Dispatched (s.setQueue queue) i c o ↔ s.Sends c o := dispatched_iff hquery
    have hhandler := sendTurn_handler (s.setQueue queue) i c query o
    constructor
    · intro hsettles
      exact .inr (sends_of_settles (s := s.setQueue queue) hq hquery hsettles)
    · intro hor
      have hsends : s.Sends c o := by
        rcases hor with hnone | hsends
        · cases hquery.symm.trans hnone
        · exact hsends
      refine ⟨_, hturn, iff_of_true hhandler (hdispatched.mpr hsends), ?_, ?_⟩
      · exact iff_of_true (List.mem_append_right _ (List.mem_singleton.mpr rfl)) (hdispatched.mpr hsends)
      · exact fun _ hnot => absurd (hdispatched.mpr hsends) hnot

/-! ### A command that cannot be sent -/

/-- libpq cannot send the command of an extrato: `PQsendQuery` returns 0. -/
def refusedExtrato : Input := .completes ⟨0, 36, getExtrato, []⟩ fun _ => ⟨false, []⟩

/-- The request waits for a reply on a connection that has no command in progress. -/
theorem waits_for_nothing :
    ∃ s t u : State 2 1, ∃ queue, State.start = .ok s ∧ run State.step s [done 0 5 []] = .ok t ∧
      t.handle ⟨0, 36, getExtrato, []⟩ = .ok u ∧ u.getDbconn.2.queue.queuPop = .ok (some 0, queue) ∧
      ¬ Settles (u.getDbconn.2.setQueue queue) 0 0 ⟨false, []⟩ ∧
      ∃ v, t.step refusedExtrato = .ok v ∧ ⟨.dbRead, 0⟩ ∈ v.pending ∧ v.conns 0 = none := by
  obtain ⟨s, t, hs, ht, hreads⟩ := exists_run_ok State.step (State.start : Except Stop (State 2 1)) [done 0 5 []]
    (fun t : State 2 1 => (
      decide (((t.step refusedExtrato).map fun v : State 2 1 =>
        (decide ((⟨.dbRead, 0⟩ : Pending 2) ∈ v.pending), v.conns 0)) = .ok (true, none)),
      decide (((t.handle ⟨0, 36, getExtrato, []⟩).map fun u : State 2 1 =>
        (u.getDbconn.2.queue.queuPop.map Prod.fst, queryOf (u.getDbconn.2.pool 0).buffer)) =
          .ok (.ok (some 0), some (.getExtrato 1)))))
    (true, true) (by decide +kernel)
  simp only [Prod.mk.injEq, decide_eq_true_eq] at hreads
  obtain ⟨hstep, hhandle⟩ := hreads
  obtain ⟨v, hv, hwaits⟩ := exists_of_map_ok hstep
  obtain ⟨hpending, hconn⟩ := Prod.mk.inj hwaits
  obtain ⟨u, hu, hturn⟩ := exists_of_map_ok hhandle
  obtain ⟨hpop, hquery⟩ := Prod.mk.inj hturn
  obtain ⟨popped, hpopped, hfirst⟩ := exists_of_map_ok hpop
  obtain ⟨found, queue⟩ := popped
  obtain rfl : found = some 0 := hfirst
  have hcons : Consistent t [] :=
    (throughout_of_all (fun _ _ _ => consistent_step) (consistent_start hs) [done 0 5 []]).last ht
  obtain ⟨_, _, _, _, _, hcons'⟩ := handle_cases hcons hu
  obtain ⟨_, hq⟩ := queuPop_first hcons'.getDbconn hpopped
  refine ⟨s, t, u, queue, hs, ht, hu, hpopped, fun h => ?_, v, hv, ?_, hconn⟩
  · have hsends : (false : Bool) = true :=
      (sends_of_settles (s := u.getDbconn.2.setQueue queue) hq hquery h).2
    cases hsends
  · exact of_decide_eq_true hpending

/-- The command of an extrato that is sent. -/
theorem extrato_settles :
    ∃ s t u : State 2 1, ∃ queue, State.start = .ok s ∧ run State.step s [done 0 5 []] = .ok t ∧
      t.handle ⟨0, 36, getExtrato, []⟩ = .ok u ∧ u.getDbconn.2.queue.queuPop = .ok (some 0, queue) ∧
      Settles (u.getDbconn.2.setQueue queue) 0 0 ⟨true, []⟩ := by
  obtain ⟨s, t, hs, ht, hreads⟩ := exists_run_ok State.step (State.start : Except Stop (State 2 1)) [done 0 5 []]
    (fun t => (t.handle ⟨0, 36, getExtrato, []⟩).map fun u =>
      (u.getDbconn.2.queue.queuPop.map Prod.fst, u.getDbconn.2.conns 0))
    (.ok (.ok (some 0), none)) (by decide +kernel)
  obtain ⟨u, hu, hturn⟩ := exists_of_map_ok hreads
  obtain ⟨hpop, hconn⟩ := Prod.mk.inj hturn
  obtain ⟨popped, hpopped, hfirst⟩ := exists_of_map_ok hpop
  obtain ⟨found, queue⟩ := popped
  obtain rfl : found = some 0 := hfirst
  have hcons : Consistent t [] :=
    (throughout_of_all (fun _ _ _ => consistent_step) (consistent_start hs) [done 0 5 []]).last ht
  obtain ⟨_, _, _, _, _, hcons'⟩ := handle_cases hcons hu
  refine ⟨s, t, u, queue, hs, ht, hu, hpopped, (settles_iff hcons'.getDbconn hpopped 0 ⟨true, []⟩).mpr (.inr ?_)⟩
  exact ⟨by rw [hconn]; rfl, rfl⟩

end Rinha.Server
