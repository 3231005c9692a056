import Rinha.Server.Dispatching

/-! What a dispatch leaves behind.

`queu_dispatch` is looked at on its own: the queue holds any slots that have a
function to call and what it reads (`Dispatchable`), the flags and the connections
are as they may be, and so is what becomes of each command. Each turn takes one
slot from the queue, so the queue is what the loop's end is proved from; the
connection in hand says nothing, as it is released and used again. -/
namespace Rinha.Server
open Library Request Client

variable {P N : Nat}

/-- The slot has a function that sends its command, and what that reads. -/
structure Callable (r : ReqRes (Fin N)) : Prop where
  sender : r.dbRequestSender.isSome
  data : r.dbData.isSome

/-- The queue is sound, and each of its slots is queued once and can be dispatched. -/
structure Dispatchable (s : State P N) : Prop where
  sound : s.queue.Sound
  nodup : s.queue.contents.Nodup
  callable : ∀ i ∈ s.queue.contents, Callable (s.pool i)

/-- A slot that was taken from the queue waits for the database with a connection
attached, if it has a function for the reply, and else for its response to be
written. -/
def Placed (r : ReqRes (Fin N)) : Prop :=
  if r.dbResponseHandler = none then r.lastEvent = .writing
  else r.lastEvent = .dbResponding ∧ r.dbconn.isSome

/-- What such a slot has been submitted for. -/
def submission (r : ReqRes (Fin N)) : Op := if r.dbResponseHandler = none then .write else .dbRead

/-- The slots `taken` are the first of the queue, the others are left in their order,
and each of the taken ones was submitted once and is as it is to be. -/
structure Served (s s' : State P N) (taken : List (Fin P)) : Prop where
  order : s.queue.contents = taken ++ s'.queue.contents
  submitted : s'.pending = s.pending ++ taken.map fun i => ⟨submission (s'.pool i), i⟩
  placed : ∀ i ∈ taken, Placed (s'.pool i)
  others : ∀ j, j ∉ taken → s'.pool j = s.pool j

/-- Nothing is queued, or no connection is left. -/
def Exhausted (s : State P N) : Prop := s.queue.contents = [] ∨ ∀ c, s.used c = true

/-- The loop comes to its end, with whatever number of turns it is given that is
more than the slots queued. -/
def Terminates (s : State P N) (outcomes : Nat → Outcome) : Prop :=
  ∃ result, ∀ fuel, s.queue.contents.length < fuel →
    State.dispatchLoop outcomes fuel 0 s.getDbconn.1 s.getDbconn.2 = .ok result

theorem QueuedSlot.callable {r : ReqRes (Fin N)} (h : QueuedSlot r) : Callable r := by
  obtain ⟨d, _, _, hdata, ⟨_, _, hsender⟩ | ⟨_, _, hsender⟩⟩ := h.waiting
  · exact ⟨by rw [hsender]; rfl, by rw [hdata]; rfl⟩
  · exact ⟨by rw [hsender]; rfl, by rw [hdata]; rfl⟩

/-- What the loop finds when it dispatches. -/
theorem Consistent.dispatchable {s : State P N} (h : Consistent s []) : Dispatchable s := by
  refine ⟨h.sound, ?_, fun i hi => (h.queued i hi).callable⟩
  have hnodup := (List.nodup_append.mp h.nodup).2.1
  rw [List.append_nil] at hnodup
  exact hnodup

/-! ### One turn -/

/-- The function that sends the command returns, and leaves the slot its connection. -/
theorem sender_returns (sender : Sender) (o : Sending) {r : ReqRes (Fin N)} (h : r.dbData.isSome)
    (conn : PGconn) : ∃ r' conn', sender.call o r conn = .ok (r', conn') ∧ r'.dbconn = r.dbconn := by
  rcases sender_answers sender o r conn with ⟨hnone, _⟩ | ⟨r', conn', hok, ⟨_, _, rfl⟩ | ⟨_, rfl⟩⟩
  · rw [hnone] at h
    cases h
  · exact ⟨_, _, hok, rfl⟩
  · exact ⟨_, _, hok, rfl⟩

/-- A turn submits its slot, as it is to be, and touches no other. -/
structure TookTurn (s t : State P N) (i : Fin P) : Prop where
  queue : t.queue = s.queue
  submitted : t.pending = s.pending ++ [⟨submission (t.pool i), i⟩]
  placed : Placed (t.pool i)
  others : ∀ j, j ≠ i → t.pool j = s.pool j

theorem dispatchTurn_took {s : State P N} {i : Fin P} (h : Callable (s.pool i)) (c : Fin N) (o : Outcome) :
    ∃ t, s.dispatchTurn i c o = .ok t ∧ TookTurn s t i := by
  obtain ⟨sender, hsender⟩ := Option.isSome_iff_exists.mp h.sender
  have hdata : ((s.pool i).setDbconn c).dbData.isSome := h.data
  obtain ⟨r, conn, hcall, hconn⟩ := sender_returns sender ⟨s.sent, o.sent, o.results⟩ hdata (s.conns c)
  have hcalled := callSender_eq (s := s) (i := i) (c := c) hsender hcall
  obtain ⟨hpool, hqueue, hpending⟩ :=
    noteSent_frame ((s.setSlot i r).setConn c conn) i (s.conns c) conn
  generalize ((s.setSlot i r).setConn c conn).noteSent i (s.conns c) conn = u at hcalled hpool hqueue hpending
  have hself : u.pool i = r := by
    rw [hpool]
    exact s.setSlot_self i r
  have hne : ∀ j, j ≠ i → u.pool j = s.pool j := by
    intro j hj
    rw [hpool]
    exact s.setSlot_ne r hj
  unfold State.dispatchTurn
  simp only [hcalled, hself]
  by_cases hnone : r.dbResponseHandler = none
  · rw [if_pos hnone]
    refine ⟨_, rfl, hqueue, ?_, ?_, fun j hj => ?_⟩
    · show u.pending ++ _ = _
      rw [hpending]
      simp only [State.pushWriting, State.note, State.submit, State.setUsed, State.setSlot_self, hself,
        submission, if_pos hnone]
      rfl
    · simp only [State.pushWriting, State.note, State.submit, State.setUsed, State.setSlot_self, hself,
        Placed, if_pos hnone]
    · simp only [State.pushWriting, State.note, State.submit, State.setUsed]
      rw [State.setSlot_ne _ _ hj]
      exact hne j hj
  · rw [if_neg hnone]
    refine ⟨_, rfl, hqueue, ?_, ?_, fun j hj => ?_⟩
    · show u.pending ++ _ = _
      rw [hpending]
      simp only [State.pushDbResponding, State.submit, State.setSlot_self, hself, submission, if_neg hnone]
      rfl
    · simp only [State.pushDbResponding, State.submit, State.setSlot_self, hself, Placed, if_neg hnone]
      rw [hconn]
      exact ⟨trivial, rfl⟩
    · simp only [State.pushDbResponding, State.submit]
      rw [State.setSlot_ne _ _ hj]
      exact hne j hj

/-! ### The loop -/

/-- The rest of the queue can be dispatched when the first has had its turn. -/
theorem Dispatchable.rest {s t : State P N} {i : Fin P} {queue : Queue (Fin P)} (h : Dispatchable s)
    (hsound : queue.Sound) (hcons : s.queue.contents = i :: queue.contents)
    (ht : TookTurn (s.setQueue queue) t i) : Dispatchable t := by
  have hnodup := h.nodup
  rw [hcons, List.nodup_cons] at hnodup
  have hqueue : t.queue = queue := ht.queue
  refine ⟨by rw [hqueue]; exact hsound, by rw [hqueue]; exact hnodup.2, fun j hj => ?_⟩
  rw [hqueue] at hj
  have hji : j ≠ i := fun heq => hnodup.1 (heq ▸ hj)
  rw [ht.others j hji]
  exact h.callable j (by rw [hcons]; exact List.mem_cons_of_mem i hj)

theorem Dispatchable.getDbconn {s : State P N} (h : Dispatchable s) : Dispatchable s.getDbconn.2 := by
  unfold State.getDbconn
  split
  · exact ⟨h.sound, h.nodup, h.callable⟩
  · exact h

/-- Taking a connection serves nobody. -/
theorem Served.of_getDbconn {s s' : State P N} {taken : List (Fin P)} (h : Served s.getDbconn.2 s' taken) :
    Served s s' taken := by
  unfold State.getDbconn at h
  split at h
  · exact ⟨h.order, h.submitted, h.placed, h.others⟩
  · exact h

/-- The slot of a turn is served with those of the turns behind it. -/
theorem Served.cons {s t s' : State P N} {i : Fin P} {queue : Queue (Fin P)} {taken : List (Fin P)}
    (h : Dispatchable s) (hcons : s.queue.contents = i :: queue.contents)
    (ht : TookTurn (s.setQueue queue) t i) (hs : Served t s' taken) : Served s s' (i :: taken) := by
  have horder : queue.contents = taken ++ s'.queue.contents := by
    rw [← hs.order, ht.queue]
    rfl
  have hnodup := h.nodup
  rw [hcons, List.nodup_cons, horder] at hnodup
  have hi : i ∉ taken := fun hmem => hnodup.1 (List.mem_append_left _ hmem)
  have hself : s'.pool i = t.pool i := hs.others i hi
  refine ⟨?_, ?_, fun j hj => ?_, fun j hj => ?_⟩
  · rw [hcons, horder, List.cons_append]
  · rw [hs.submitted, ht.submitted, List.map_cons, hself, List.append_assoc]
    rfl
  · rcases List.mem_cons.mp hj with rfl | hj
    · rw [hself]
      exact ht.placed
    · exact hs.placed j hj
  · rw [hs.others j fun hmem => hj (List.mem_cons_of_mem i hmem)]
    exact ht.others j fun heq => hj (heq ▸ List.mem_cons_self ..)

/-- A connection is in hand, or none is left. -/
def HandOrFull (hand : Option (Fin N)) (s : State P N) : Prop := hand = none → ∀ c, s.used c = true

theorem handOrFull_getDbconn (s : State P N) : HandOrFull s.getDbconn.1 s.getDbconn.2 := by
  unfold State.getDbconn
  split
  · exact nofun
  · rename_i hnone
    intro _ c
    simpa using List.find?_eq_none.mp hnone c (List.mem_finRange c)

theorem dispatchLoop_none (outcomes : Nat → Outcome) (fuel k : Nat) (s : State P N) :
    State.dispatchLoop outcomes fuel k none s = .ok (none, s) := by
  cases fuel <;> rfl

theorem served_nothing (s : State P N) : Served s s [] := by
  refine ⟨rfl, ?_, nofun, fun _ _ => rfl⟩
  rw [List.map_nil, List.append_nil]

/-- The induction is on the slots queued: each turn takes one, whatever becomes of
the connection. -/
theorem dispatchLoop_serves (outcomes : Nat → Outcome) (n k : Nat) (hand : Option (Fin N)) (s : State P N)
    (h : Dispatchable s) (hlen : s.queue.contents.length = n) (hhand : HandOrFull hand s) :
    ∃ hand' s' taken, (∀ fuel, n < fuel → State.dispatchLoop outcomes fuel k hand s = .ok (hand', s')) ∧
      Served s s' taken ∧ HandOrFull hand' s' ∧ (hand'.isSome → s'.queue.contents = []) := by
  induction n generalizing k hand s with
  | zero =>
    cases hand with
    | none =>
      exact ⟨none, s, [], fun fuel _ => dispatchLoop_none outcomes fuel k s, served_nothing s, hhand,
        fun hsome => (by cases hsome)⟩
    | some c =>
      have hnil : s.queue.contents = [] := List.length_eq_zero_iff.mp hlen
      obtain ⟨queue, _, ⟨_, hnil', hpop⟩ | ⟨i, hcons, _⟩⟩ := pop_contents h.sound
      · refine ⟨some c, s.setQueue queue, [], fun fuel hfuel => ?_, ?_, fun heq => (by cases heq), fun _ => hnil'⟩
        · obtain ⟨fuel, rfl⟩ : ∃ m, fuel = m + 1 := ⟨fuel - 1, by omega⟩
          rw [State.dispatchLoop, hpop]
          rfl
        · exact ⟨hnil.trans hnil'.symm, (served_nothing s).submitted, (served_nothing s).placed, fun _ _ => rfl⟩
      · rw [hnil] at hcons
        cases hcons
  | succ n ih =>
    cases hand with
    | none =>
      exact ⟨none, s, [], fun fuel _ => dispatchLoop_none outcomes fuel k s, served_nothing s, hhand,
        fun hsome => (by cases hsome)⟩
    | some c =>
      obtain ⟨queue, hsound, ⟨hnil, _, _⟩ | ⟨i, hcons, hpop⟩⟩ := pop_contents h.sound
      · rw [hnil] at hlen
        cases hlen
      have hcall : Callable (s.pool i) := h.callable i (by rw [hcons]; exact List.mem_cons_self ..)
      obtain ⟨t, hturn, ht⟩ := dispatchTurn_took (s := s.setQueue queue) hcall c (outcomes k)
      have hrest : Dispatchable t := h.rest hsound hcons ht
      have hlen' : t.queue.contents.length = n := by
        rw [ht.queue]
        rw [hcons, List.length_cons] at hlen
        exact Nat.succ.inj hlen
      by_cases hnone : (t.pool i).dbResponseHandler = none
      · obtain ⟨hand', s', taken, hloop, hserved, hend⟩ := ih (k + 1) (some c) t hrest hlen' fun heq => (by cases heq)
        refine ⟨hand', s', i :: taken, fun fuel hfuel => ?_, hserved.cons h hcons ht, hend⟩
        obtain ⟨fuel, rfl⟩ : ∃ m, fuel = m + 1 := ⟨fuel - 1, by omega⟩
        rw [dispatchLoop_turn hpop, hturn]
        simp only [if_pos hnone]
        exact hloop fuel (by omega)
      · have hqueue : t.getDbconn.2.queue.contents.length = n := by
          rw [getDbconn_queue]
          exact hlen'
        obtain ⟨hand', s', taken, hloop, hserved, hend⟩ :=
          ih (k + 1) t.getDbconn.1 t.getDbconn.2 hrest.getDbconn hqueue (handOrFull_getDbconn t)
        refine ⟨hand', s', i :: taken, fun fuel hfuel => ?_, hserved.of_getDbconn.cons h hcons ht, hend⟩
        obtain ⟨fuel, rfl⟩ : ∃ m, fuel = m + 1 := ⟨fuel - 1, by omega⟩
        rw [dispatchLoop_turn hpop, hturn]
        simp only [if_neg hnone]
        exact hloop fuel (by omega)

/-! ### The dispatch -/

/-- For every queue whose slots can be dispatched, every state of the flags and the
connections, and everything that can become of the commands: the dispatch comes to
its end, and then nothing is queued or every connection is used; the slots it took
were the first of the queue, and each was submitted once, for the write of its
response or with a connection for the reply. -/
theorem queuDispatch_complete {s : State P N} (h : Dispatchable s) (outcomes : Nat → Outcome) :
    Terminates s outcomes ∧ ∃ s' taken, s.queuDispatch outcomes = .ok s' ∧ Served s s' taken ∧
      taken.Nodup ∧ Exhausted s' := by
  obtain ⟨hand, t, taken, hloop, hserved, hfull, hempty⟩ :=
    dispatchLoop_serves outcomes _ 0 s.getDbconn.1 s.getDbconn.2 h.getDbconn rfl (handOrFull_getDbconn s)
  have hserved' : Served s t taken := hserved.of_getDbconn
  have hnodup : taken.Nodup := by
    have hall := h.nodup
    rw [hserved'.order] at hall
    exact (List.nodup_append.mp hall).1
  have hlast := hloop _ (Nat.lt_succ_self _)
  rw [getDbconn_queue] at hloop
  refine ⟨⟨(hand, t), hloop⟩, ?_⟩
  unfold State.queuDispatch
  simp only [hlast]
  cases hand with
  | none => exact ⟨t, taken, rfl, hserved', hnodup, .inr (hfull rfl)⟩
  | some c =>
    have hreleased : Served s (t.setUsed c false) taken :=
      ⟨hserved'.order, hserved'.submitted, hserved'.placed, hserved'.others⟩
    exact ⟨t.setUsed c false, taken, rfl, hreleased, hnodup, .inl (hempty rfl)⟩

/-- The reply that the one connection was awaited for has come, and two requests are
queued: the first is refused, the second is sent. -/
theorem queuDispatch_complete_behindRefused :
    ∃ s t u : State 4 1, State.start = .ok s ∧ run State.step s (behindRefused.take 6) = .ok t ∧
      t.handle ⟨0, 0, [], [⟨1, false⟩]⟩ = .ok u ∧
      u.queue.contents.map (fun i => (i, queryOf (u.pool i).buffer)) = [(1, none), (2, some (.getExtrato 1))] ∧
      Terminates u (fun _ => ⟨true, []⟩) ∧ ∃ v taken, u.queuDispatch (fun _ => ⟨true, []⟩) = .ok v ∧
        Served u v taken ∧ taken.Nodup ∧ Exhausted v := by
  obtain ⟨s, t, hs, ht, hreads⟩ := exists_run_ok State.step (State.start : Except Stop (State 4 1))
    (behindRefused.take 6)
    (fun t => (t.handle ⟨0, 0, [], [⟨1, false⟩]⟩).map fun u =>
      u.queue.contents.map fun i => (i, queryOf (u.pool i).buffer))
    (.ok [(1, none), (2, some (.getExtrato 1))]) (by decide +kernel)
  obtain ⟨u, hu, hqueued⟩ := exists_of_map_ok hreads
  have hcons : Consistent t [] :=
    (throughout_of_all (fun _ _ _ => consistent_step) (consistent_start hs) (behindRefused.take 6)).last ht
  obtain ⟨_, _, _, _, _, hcons'⟩ := handle_cases hcons hu
  exact ⟨s, t, u, hs, ht, hu, hqueued, queuDispatch_complete hcons'.dispatchable fun _ => ⟨true, []⟩⟩

end Rinha.Server
