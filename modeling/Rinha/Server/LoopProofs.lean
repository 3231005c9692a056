import Rinha.Server.ControllerProofs
import Rinha.Server.Loop
import Rinha.Server.QueueProofs

/-! What the parts of `server_loop` do to the slots.

A slot in use is in one place at most: it is the `user_data` of one pending
operation, or it is queued once, or the loop has it in hand (`Consistent`). This
holds in every run. Each part of the loop takes a slot into its hand or hands it
on, and one lemma says so for each. -/
namespace Rinha.Server
open Library Request Client

variable {P N : Nat}

/-! ### Consistency -/

/-- What a slot is while an operation on it is pending. -/
def SlotFor : Op → ReqRes (Fin N) → Prop
  | .accept, r => r = {ReqRes.zero with ring := true}
  | .read, r => ∃ fd, r = {ReqRes.zero with ring := true, lastEvent := .reading, clientFd := fd}
  | .write, r => r.ring = true ∧ r.lastEvent = .writing
  | .close, r => r.ring = true ∧ r.lastEvent = .closing
  | .dbRead, r => r.ring = true ∧ r.lastEvent = .dbResponding ∧ r.dbResponseHandler.isSome ∧ r.dbconn.isSome

theorem SlotFor.ring {op : Op} {r : ReqRes (Fin N)} (h : SlotFor op r) : r.ring = true := by
  cases op with
  | accept => rw [show r = _ from h]
  | read =>
    obtain ⟨fd, rfl⟩ := h
    rfl
  | write => exact h.1
  | close => exact h.1
  | dbRead => exact h.1

/-- What a slot is while it is queued. -/
structure QueuedSlot (r : ReqRes (Fin N)) : Prop where
  ring : r.ring = true
  waiting : Waiting r
  noHandler : r.dbResponseHandler = none

namespace State

/-! ### Changes in one place -/

@[simp] theorem setSlot_self (s : State P N) (i : Fin P) (r : ReqRes (Fin N)) : (s.setSlot i r).pool i = r :=
  Function.update_self ..

theorem setSlot_ne (s : State P N) {i j : Fin P} (r : ReqRes (Fin N)) (h : j ≠ i) :
    (s.setSlot i r).pool j = s.pool j := Function.update_of_ne h ..

@[simp] theorem setUsed_self (s : State P N) (c : Fin N) (b : Bool) : (s.setUsed c b).used c = b :=
  Function.update_self ..

theorem setUsed_ne (s : State P N) {c d : Fin N} (b : Bool) (h : d ≠ c) :
    (s.setUsed c b).used d = s.used d := Function.update_of_ne h ..

/-- The slots of the pending operations, the queued ones and those in hand. -/
def places (s : State P N) (hand : List (Fin P)) : List (Fin P) :=
  s.pending.map Pending.slot ++ (s.queue.contents ++ hand)

end State

/-- Taking a pending operation out leaves the others. -/
theorem pending_perm {s : State P N} {k : Nat} {p : Pending P} (hp : s.pending[k]? = some p) :
    s.pending.Perm (p :: s.pending.eraseIdx k) := by
  obtain ⟨hlt, hget⟩ := List.getElem?_eq_some_iff.mp hp
  rw [← hget]
  exact (List.getElem_cons_eraseIdx_perm hlt).symm

structure Consistent (s : State P N) (hand : List (Fin P)) : Prop where
  sound : s.queue.Sound
  nodup : (s.places hand).Nodup
  pending : ∀ p ∈ s.pending, SlotFor p.op (s.pool p.slot)
  queued : ∀ i ∈ s.queue.contents, QueuedSlot (s.pool i)
  hand : ∀ i ∈ hand, (s.pool i).ring = true
  free : ∀ i, (s.pool i).ring = false → s.pool i = .zero

/-- Every slot in use has its place. -/
def Covered (s : State P N) (hand : List (Fin P)) : Prop :=
  ∀ i, (s.pool i).ring = true → i ∈ s.places hand

namespace Consistent
variable {s s' : State P N} {hand : List (Fin P)} {i : Fin P}

theorem congr (h : Consistent s hand) (hpool : s'.pool = s.pool) (hqueue : s'.queue = s.queue)
    (hpending : s'.pending = s.pending) : Consistent s' hand := by
  constructor
  · rw [hqueue]; exact h.sound
  · rw [State.places, hqueue, hpending]; exact h.nodup
  · rw [hpool, hpending]; exact h.pending
  · rw [hpool, hqueue]; exact h.queued
  · rw [hpool]; exact h.hand
  · rw [hpool]; exact h.free

theorem not_pending (h : Consistent s (i :: hand)) {p : Pending P} (hp : p ∈ s.pending) : p.slot ≠ i := by
  intro heq
  have hdisj := (List.nodup_append.mp h.nodup).2.2
  exact hdisj p.slot (List.mem_map_of_mem hp) i (List.mem_append_right _ (List.mem_cons_self ..)) heq

theorem not_queued (h : Consistent s (i :: hand)) {j : Fin P} (hj : j ∈ s.queue.contents) : j ≠ i := by
  intro heq
  have hright := (List.nodup_append.mp h.nodup).2.1
  exact (List.nodup_append.mp hright).2.2 j hj i (List.mem_cons_self ..) heq

/-- A slot in hand is changed, and stays in use. -/
theorem setSlot (h : Consistent s (i :: hand)) {r : ReqRes (Fin N)} (hr : r.ring = true) :
    Consistent (s.setSlot i r) (i :: hand) := by
  refine ⟨h.sound, h.nodup, fun p hp => ?_, fun j hj => ?_, fun j hj => ?_, fun j hj => ?_⟩
  · rw [s.setSlot_ne r (h.not_pending hp)]
    exact h.pending p hp
  · rw [s.setSlot_ne r (h.not_queued hj)]
    exact h.queued j hj
  · by_cases hji : j = i
    · rw [hji, s.setSlot_self]
      exact hr
    · rw [s.setSlot_ne r hji]
      exact h.hand j hj
  · by_cases hji : j = i
    · rw [hji, s.setSlot_self, hr] at hj
      cases hj
    · rw [s.setSlot_ne r hji] at hj ⊢
      exact h.free j hj

/-- A slot in hand is handed to an operation. -/
theorem submit (h : Consistent s (i :: hand)) (op : Op) (hr : SlotFor op (s.pool i)) :
    Consistent (s.submit op i) hand := by
  have hperm : ((s.submit op i).places hand).Perm (s.places (i :: hand)) := by
    unfold State.places State.submit
    rw [List.map_append, List.append_assoc]
    exact List.Perm.append_left _ (@List.perm_middle _ i s.queue.contents hand).symm
  refine ⟨h.sound, hperm.nodup_iff.mpr h.nodup, fun p hp => ?_, h.queued,
    fun j hj => h.hand j (List.mem_cons_of_mem i hj), h.free⟩
  rcases List.mem_append.mp hp with hp | hp
  · exact h.pending p hp
  · rw [List.mem_singleton.mp hp]
    exact hr

/-- A slot in hand is handed to an operation, as this operation wants it. -/
theorem push (h : Consistent s (i :: hand)) (op : Op) {r : ReqRes (Fin N)} (hr : SlotFor op r) :
    Consistent ((s.setSlot i r).submit op i) hand :=
  (h.setSlot hr.ring).submit op (by rw [s.setSlot_self]; exact hr)

/-- A slot in hand is forgotten: it stays in use, and is in no place. -/
theorem drop (h : Consistent s (i :: hand)) : Consistent s hand := by
  refine ⟨h.sound, ?_, h.pending, h.queued, fun j hj => h.hand j (List.mem_cons_of_mem i hj), h.free⟩
  refine h.nodup.sublist ?_
  exact ((List.sublist_cons_self i hand).append_left _).append_left _

/-- A slot in hand is freed. -/
theorem deinitReqres (h : Consistent s (i :: hand)) : Consistent (s.deinitReqres i) hand := by
  have hhand : ∀ j ∈ hand, j ≠ i := by
    intro j hj heq
    have hright := (List.nodup_append.mp (List.nodup_append.mp h.nodup).2.1).2.1
    exact (List.nodup_cons.mp hright).1 (heq ▸ hj)
  refine ⟨h.sound, h.drop.nodup, fun p hp => ?_, fun j hj => ?_, fun j hj => ?_, fun j hj => ?_⟩
  · rw [State.deinitReqres, s.setSlot_ne _ (h.not_pending hp)]
    exact h.pending p hp
  · rw [State.deinitReqres, s.setSlot_ne _ (h.not_queued hj)]
    exact h.queued j hj
  · rw [State.deinitReqres, s.setSlot_ne _ (hhand j hj)]
    exact h.hand j (List.mem_cons_of_mem i hj)
  · by_cases hji : j = i
    · rw [hji, State.deinitReqres, s.setSlot_self]
    · rw [State.deinitReqres, s.setSlot_ne _ hji] at hj ⊢
      exact h.free j hj

/-- What has a place is in use. -/
theorem ring_of_place (h : Consistent s hand) {j : Fin P} (hj : j ∈ s.places hand) :
    (s.pool j).ring = true := by
  rcases List.mem_append.mp hj with hj | hj
  · obtain ⟨p, hp, rfl⟩ := List.mem_map.mp hj
    exact (h.pending p hp).ring
  · rcases List.mem_append.mp hj with hj | hj
    · exact (h.queued j hj).ring
    · exact h.hand j hj

/-- A free slot is taken in hand. -/
theorem initReqres (h : Consistent s hand) (hinit : s.initReqres = some (i, s')) :
    (s.pool i).ring = false ∧ s' = s.setSlot i {ReqRes.zero with ring := true} ∧
      Consistent s' (i :: hand) := by
  unfold State.initReqres at hinit
  split at hinit
  · rename_i j hj
    obtain ⟨rfl, rfl⟩ := Prod.mk.inj (Option.some.inj hinit)
    have hfree : (s.pool j).ring = false := by simpa using List.find?_some hj
    have hzero := h.free j hfree
    have hplace : j ∉ s.places hand := by
      intro hmem
      rw [h.ring_of_place hmem] at hfree
      cases hfree
    have hpend : ∀ p ∈ s.pending, p.slot ≠ j := fun p hp heq =>
      hplace (List.mem_append_left _ (heq ▸ List.mem_map_of_mem hp))
    have hqueue : ∀ k ∈ s.queue.contents, k ≠ j := fun k hk heq =>
      hplace (List.mem_append_right _ (List.mem_append_left _ (heq ▸ hk)))
    refine ⟨hfree, by rw [hzero], h.sound, ?_, fun p hp => ?_, fun k hk => ?_, fun k hk => ?_, fun k hk => ?_⟩
    · have hperm : ((s.setSlot j {s.pool j with ring := true}).places (j :: hand)).Perm
          (j :: s.places hand) := by
        refine (List.Perm.append_left _ List.perm_middle).trans ?_
        exact List.perm_middle
      exact hperm.nodup_iff.mpr (List.nodup_cons.mpr ⟨hplace, h.nodup⟩)
    · rw [s.setSlot_ne _ (hpend p hp)]
      exact h.pending p hp
    · rw [s.setSlot_ne _ (hqueue k hk)]
      exact h.queued k hk
    · by_cases hkj : k = j
      · rw [hkj, s.setSlot_self]
      · rw [s.setSlot_ne _ hkj]
        exact h.hand k ((List.mem_cons.mp hk).resolve_left hkj)
    · by_cases hkj : k = j
      · rw [hkj, s.setSlot_self] at hk
        cases hk
      · rw [s.setSlot_ne _ hkj] at hk ⊢
        exact h.free k hk
  · cases hinit

/-- The next accept is pending on a slot that was free. -/
theorem pushAccepting (h : Consistent s hand) (hs : s.pushAccepting = .ok s') :
    ∃ j, (s.pool j).ring = false ∧ Consistent s' hand ∧
      s' = {s with
        pool := Function.update s.pool j {ReqRes.zero with ring := true}
        pending := s.pending ++ [⟨.accept, j⟩]} := by
  unfold State.pushAccepting at hs
  split at hs
  · cases hs
  · rename_i j u hinit
    cases hs
    obtain ⟨hfree, rfl, hj⟩ := h.initReqres hinit
    refine ⟨j, hfree, ?_, ?_⟩
    · apply hj.push .accept
      rw [State.setSlot_self]
      rfl
    · simp only [State.submit, State.setSlot, Function.update_self, Function.update_idem]
      rfl

/-- The slot of a pending accept goes on to the read of the connection. -/
theorem pushReading {client : Fin P → Nat} {accepted : Nat} {result : Int} (h : Consistent s [i])
    (hslot : SlotFor .accept (s.pool i)) :
    Consistent (State.pushReading {s with client := client, accepted := accepted} i result) [] := by
  have hzero : s.pool i = {ReqRes.zero with ring := true} := hslot
  have hpush := h.push .read
    (r := {ReqRes.zero with ring := true, lastEvent := .reading, clientFd := result}) ⟨_, rfl⟩
  refine hpush.congr ?_ rfl rfl
  simp only [State.pushReading, State.submit, State.setSlot, hzero]

/-- A completed operation's slot is taken in hand. -/
theorem complete (h : Consistent s hand) {k : Nat} {p : Pending P} (hp : s.pending[k]? = some p) :
    SlotFor p.op (s.pool p.slot) ∧
      Consistent {s with pending := s.pending.eraseIdx k} (p.slot :: hand) := by
  have hmem : p ∈ s.pending := List.mem_of_getElem? hp
  have hperm : (({s with pending := s.pending.eraseIdx k} : State P N).places (p.slot :: hand)).Perm
      (s.places hand) := by
    refine (List.Perm.append_left _ List.perm_middle).trans ?_
    refine List.perm_middle.trans ?_
    exact ((pending_perm hp).map Pending.slot).symm.append_right _
  refine ⟨h.pending p hmem, h.sound, hperm.nodup_iff.mpr h.nodup, fun q hq => ?_, h.queued,
    fun j hj => ?_, h.free⟩
  · exact h.pending q (List.mem_of_mem_eraseIdx hq)
  · rcases List.mem_cons.mp hj with rfl | hj
    · exact (h.pending p hmem).ring
    · exact h.hand j hj

/-- The first of the queued slots is taken in hand, if there is one. -/
theorem queuPop (h : Consistent s hand) : ∃ queue,
    (s.queue.contents = [] ∧ queue.contents = [] ∧ s.queue.queuPop = .ok (none, queue) ∧
        Consistent {s with queue := queue} hand) ∨
      ∃ i, s.queue.contents = i :: queue.contents ∧ s.queue.queuPop = .ok (some i, queue) ∧
        QueuedSlot (s.pool i) ∧ Consistent {s with queue := queue} (i :: hand) := by
  obtain ⟨queue, hsound, ⟨hempty, hempty', hpop⟩ | ⟨i, hcons, hpop⟩⟩ := pop_contents h.sound
  · refine ⟨queue, .inl ⟨hempty, hempty', hpop, hsound, ?_, h.pending, fun j hj => ?_, h.hand, h.free⟩⟩
    · have hnodup := h.nodup
      unfold State.places at hnodup ⊢
      rw [hempty'] 
      rw [hempty] at hnodup
      exact hnodup
    · rw [hempty'] at hj
      cases hj
  · have hmem : i ∈ s.queue.contents := by rw [hcons]; exact List.mem_cons_self ..
    refine ⟨queue, .inr ⟨i, hcons, hpop, h.queued i hmem, hsound, ?_, h.pending, fun j hj => ?_,
      fun j hj => ?_, h.free⟩⟩
    · have hnodup := h.nodup
      unfold State.places at hnodup ⊢
      rw [hcons, List.cons_append] at hnodup
      exact ((List.perm_middle.append_left _).nodup_iff).mpr hnodup
    · exact h.queued j (by rw [hcons]; exact List.mem_cons_of_mem i hj)
    · rcases List.mem_cons.mp hj with rfl | hj
      · exact (h.queued j hmem).ring
      · exact h.hand j hj

/-- A slot in hand is queued, or lost with others: see `push_contents`. -/
theorem queuPush (h : Consistent s (i :: hand)) (hq : QueuedSlot (s.pool i)) : ∃ queue,
    s.queue.queuPush i = .ok queue ∧ Consistent {s with queue := queue} hand ∧
      (s.queue.LastIsFinal ↔ queue.contents = s.queue.contents ++ [i]) ∧
      queue.contents.Sublist (s.queue.contents ++ [i]) := by
  obtain ⟨queue, hsound, hpush, hsub, hiff⟩ := push_contents h.sound i
  refine ⟨queue, hpush, ⟨hsound, ?_, h.pending, fun j hj => ?_,
    fun j hj => h.hand j (List.mem_cons_of_mem i hj), h.free⟩, hiff, hsub⟩
  · refine h.nodup.sublist ?_
    refine List.Sublist.append_left ?_ _
    have hwith := hsub.append_right hand
    rw [List.append_assoc] at hwith
    exact hwith
  · rcases List.mem_append.mp (hsub.subset hj) with hj | hj
    · exact h.queued j hj
    · rw [List.mem_singleton.mp hj]
      exact hq

theorem pushWriting (h : Consistent s (i :: hand)) (source : PGconn) :
    Consistent (s.pushWriting i source) hand :=
  (h.push .write (r := {s.pool i with lastEvent := .writing}) ⟨h.hand i (List.mem_cons_self ..), rfl⟩).congr
    rfl rfl rfl

theorem pushCloseConnection (h : Consistent s (i :: hand)) : Consistent (s.pushCloseConnection i) hand :=
  h.push .close ⟨h.hand i (List.mem_cons_self ..), rfl⟩

theorem pushDbResponding (h : Consistent s (i :: hand)) (hhandler : (s.pool i).dbResponseHandler.isSome)
    (hconn : (s.pool i).dbconn.isSome) : Consistent (s.pushDbResponding i) hand :=
  h.push .dbRead ⟨h.hand i (List.mem_cons_self ..), rfl, hhandler, hconn⟩

theorem setUsed (h : Consistent s hand) (c : Fin N) (b : Bool) : Consistent (s.setUsed c b) hand :=
  h.congr rfl rfl rfl

theorem getDbconn (h : Consistent s hand) : Consistent s.getDbconn.2 hand := by
  unfold State.getDbconn
  split
  · exact h.setUsed _ true
  · exact h

end Consistent

/-! ### One turn of the dispatch -/

/-- The slot of a request that was answered by the function to send its command. -/
def declined (r : ReqRes (Fin N)) (c : Fin N) (response : List UInt8) : ReqRes (Fin N) :=
  {r.setDbconn c with dbData := none}.setStaticResponse response

/-- The slot of a request whose command was sent, or refused. -/
def engaged (r : ReqRes (Fin N)) (c : Fin N) (query : Query) : ReqRes (Fin N) :=
  {r.setDbconn c with dbData := none, dbResponseHandler := some (handlerFor query)}

namespace State

/-- A turn that answers the request without the database. -/
def refuseTurn (s : State P N) (queue : Queue (Fin P)) (i : Fin P) (c : Fin N) (response : List UInt8) :
    State P N :=
  {s with
    pool := Function.update s.pool i {declined (s.pool i) c response with lastEvent := .writing}
    used := Function.update s.used c false
    queue := queue
    pending := s.pending ++ [⟨.write, i⟩]
    log := s.log ++ [.wrote (s.client i) (declined (s.pool i) c response).buffer none]}

/-- The command is sent on the connection, and not refused. -/
def Sends (s : State P N) (c : Fin N) (o : Outcome) : Prop := (s.conns c).isNone = true ∧ o.sent = true

instance (s : State P N) (c : Fin N) (o : Outcome) : Decidable (s.Sends c o) :=
  inferInstanceAs (Decidable (_ ∧ _))

/-- A turn that sends the request's command and has it wait for the reply. -/
def sendTurn (s : State P N) (queue : Queue (Fin P)) (i : Fin P) (c : Fin N) (query : Query) (o : Outcome) :
    State P N :=
  {s with
    pool := Function.update s.pool i {engaged (s.pool i) c query with lastEvent := .dbResponding}
    conns := if s.Sends c o then Function.update s.conns c (some ⟨s.sent, query, o.results⟩) else s.conns
    queue := queue
    pending := s.pending ++ [⟨.dbRead, i⟩]
    sent := if s.Sends c o then s.sent + 1 else s.sent
    log := if s.Sends c o then s.log ++ [.sent (s.client i) s.sent query] else s.log}

theorem refuseTurn_ne (s : State P N) (queue : Queue (Fin P)) {i j : Fin P} (c : Fin N) (response : List UInt8)
    (h : j ≠ i) : (s.refuseTurn queue i c response).pool j = s.pool j := Function.update_of_ne h ..

theorem sendTurn_self (s : State P N) (queue : Queue (Fin P)) (i : Fin P) (c : Fin N) (query : Query) (o : Outcome) :
    (s.sendTurn queue i c query o).pool i = {engaged (s.pool i) c query with lastEvent := .dbResponding} :=
  Function.update_self ..

theorem sendTurn_ne (s : State P N) (queue : Queue (Fin P)) {i j : Fin P} (c : Fin N) (query : Query) (o : Outcome)
    (h : j ≠ i) : (s.sendTurn queue i c query o).pool j = s.pool j := Function.update_of_ne h ..

end State

section Turn
variable {s : State P N} {hand : List (Fin P)} {i : Fin P} {c : Fin N}

theorem setConn_same (s : State P N) (c : Fin N) : s.setConn c (s.conns c) = s := by
  unfold State.setConn
  rw [Function.update_eq_self]

theorem noteSent_same (s : State P N) (i : Fin P) (conn : PGconn) : s.noteSent i conn conn = s := by
  cases conn <;> rfl

theorem callSender_eq {o : Outcome} {sender : Sender} {reqres : ReqRes (Fin N)} {conn : PGconn}
    (hsender : ((s.pool i).setDbconn c).dbRequestSender = some sender)
    (hcall : sender.call ⟨s.sent, o.sent, o.results⟩ ((s.pool i).setDbconn c) (s.conns c) = .ok (reqres, conn)) :
    s.callSender i c o = .ok (((s.setSlot i reqres).setConn c conn).noteSent i (s.conns c) conn) := by
  unfold State.callSender
  simp only [hsender, hcall]

/-- Calling the function that sends a queued request's command. -/
theorem callSender_cases (hq : QueuedSlot (s.pool i)) (c : Fin N) (o : Outcome) :
    (queryOf (s.pool i).buffer = none ∧ ∃ response, Refusal response ∧
      s.callSender i c o = .ok (s.setSlot i (declined (s.pool i) c response))) ∨
      ∃ query, queryOf (s.pool i).buffer = some query ∧
        s.callSender i c o = .ok (((s.setSlot i (engaged (s.pool i) c query)).setConn c
          (sendOn ⟨s.sent, o.sent, o.results⟩ query (s.conns c))).noteSent i (s.conns c)
            (sendOn ⟨s.sent, o.sent, o.results⟩ query (s.conns c))) := by
  have hwaiting : Waiting ((s.pool i).setDbconn c) := hq.waiting
  obtain ⟨sender, hsender, hcases⟩ :=
    sender_cases ⟨s.sent, o.sent, o.results⟩ hwaiting (s.conns c)
  rcases hcases with ⟨hnone, response, hr, hcall⟩ | ⟨query, hquery, hcall⟩
  · refine .inl ⟨hnone, response, hr, ?_⟩
    rw [callSender_eq hsender hcall, noteSent_same]
    exact congrArg Except.ok (setConn_same (s.setSlot i _) c)
  · exact .inr ⟨query, hquery, callSender_eq hsender hcall⟩

/-- The turn that answers, as the loop makes it. -/
theorem refuseTurn_eq (s : State P N) (queue : Queue (Fin P)) (i : Fin P) (c : Fin N) (response : List UInt8) :
    ((({s with queue := queue}.setSlot i (declined (s.pool i) c response)).setUsed c false).pushWriting i none) =
      s.refuseTurn queue i c response := by
  unfold State.pushWriting State.refuseTurn
  simp only [State.setUsed, State.setSlot, State.submit, State.note, Function.update_self,
    Function.update_idem]

/-- The turn that sends, as the loop makes it. -/
theorem sendTurn_eq (s : State P N) (queue : Queue (Fin P)) (i : Fin P) (c : Fin N) (query : Query)
    (o : Outcome) :
    ((({s with queue := queue}.setSlot i (engaged (s.pool i) c query)).setConn c
      (sendOn ⟨s.sent, o.sent, o.results⟩ query (s.conns c))).noteSent i (s.conns c)
        (sendOn ⟨s.sent, o.sent, o.results⟩ query (s.conns c))).pushDbResponding i =
      s.sendTurn queue i c query o := by
  by_cases h : s.Sends c o
  · have hnone : s.conns c = none := by simpa using h.1
    have hsent : sendOn ⟨s.sent, o.sent, o.results⟩ query (s.conns c) = some ⟨s.sent, query, o.results⟩ :=
      if_pos h
    rw [hsent, hnone]
    unfold State.pushDbResponding State.sendTurn
    simp only [if_pos h, State.noteSent, State.setSlot, State.setConn, State.submit, State.note,
      Function.update_self, Function.update_idem]
  · have hrefused : sendOn ⟨s.sent, o.sent, o.results⟩ query (s.conns c) = s.conns c := if_neg h
    have hconn : ({s with queue := queue}.setSlot i (engaged (s.pool i) c query)).setConn c (s.conns c) =
        {s with queue := queue}.setSlot i (engaged (s.pool i) c query) := setConn_same _ c
    rw [hrefused, noteSent_same, hconn]
    unfold State.pushDbResponding State.sendTurn
    simp only [if_neg h, State.setSlot, State.submit, Function.update_self, Function.update_idem]

theorem dispatchLoop_refuse {outcomes : Nat → Outcome} {fuel k : Nat} {queue : Queue (Fin P)}
    {t : State P N} (hpop : s.queue.queuPop = .ok (some i, queue))
    (hcall : {s with queue := queue}.callSender i c (outcomes k) = .ok t)
    (hnone : (t.pool i).dbResponseHandler = none) :
    State.dispatchLoop outcomes (fuel + 1) k (some c) s =
      State.dispatchLoop outcomes fuel (k + 1) (some c) ((t.setUsed c false).pushWriting i none) := by
  rw [State.dispatchLoop, hpop]
  simp only [hcall, if_pos hnone]

theorem dispatchLoop_send {outcomes : Nat → Outcome} {fuel k : Nat} {queue : Queue (Fin P)}
    {t : State P N} (hpop : s.queue.queuPop = .ok (some i, queue))
    (hcall : {s with queue := queue}.callSender i c (outcomes k) = .ok t)
    (hsome : (t.pool i).dbResponseHandler ≠ none) :
    State.dispatchLoop outcomes (fuel + 1) k (some c) s =
      State.dispatchLoop outcomes fuel (k + 1) (t.pushDbResponding i).getDbconn.1
        (t.pushDbResponding i).getDbconn.2 := by
  rw [State.dispatchLoop, hpop]
  simp only [hcall, if_neg hsome]

/-- The slots stay consistent through a turn. -/
theorem Consistent.refuseTurn {queue : Queue (Fin P)} (h : Consistent {s with queue := queue} [i])
    (hq : QueuedSlot (s.pool i)) (c : Fin N) (response : List UInt8) :
    Consistent (s.refuseTurn queue i c response) [] := by
  have hring : (declined (s.pool i) c response).ring = true := hq.ring
  rw [← refuseTurn_eq]
  exact ((h.setSlot hring).setUsed c false).pushWriting none

theorem Consistent.sendTurn {queue : Queue (Fin P)} (h : Consistent {s with queue := queue} [i])
    (hq : QueuedSlot (s.pool i)) (c : Fin N) (query : Query) (o : Outcome) :
    Consistent (s.sendTurn queue i c query o) [] := by
  have hpush := h.push .dbRead
    (r := {engaged (s.pool i) c query with lastEvent := .dbResponding}) ⟨hq.ring, rfl, rfl, rfl⟩
  exact hpush.congr rfl rfl rfl

end Turn

/-- `I`, of the connection in hand and the state, is kept by each turn. -/
structure KeptByTurns (I : Option (Fin N) → State P N → Prop) : Prop where
  empty : ∀ c (s : State P N) queue, I (some c) s → s.queue.contents = [] → queue.contents = [] →
    I (some c) {s with queue := queue}
  refuse : ∀ c (s : State P N) queue i response, Consistent s [] → I (some c) s →
    s.queue.contents = i :: queue.contents → QueuedSlot (s.pool i) →
    queryOf (s.pool i).buffer = none → Refusal response → I (some c) (s.refuseTurn queue i c response)
  send : ∀ c (s : State P N) queue i query o, Consistent s [] → I (some c) s →
    s.queue.contents = i :: queue.contents → QueuedSlot (s.pool i) →
    queryOf (s.pool i).buffer = some query →
    I (s.sendTurn queue i c query o).getDbconn.1 (s.sendTurn queue i c query o).getDbconn.2

theorem getDbconn_queue (s : State P N) : s.getDbconn.2.queue = s.queue := by
  unfold State.getDbconn
  split <;> rfl

/-- What each turn keeps, the loop of `queu_dispatch` keeps. It ends, and keeps the
slots consistent. -/
theorem dispatchLoop_induct {I : Option (Fin N) → State P N → Prop} (hI : KeptByTurns I)
    (outcomes : Nat → Outcome)
    (fuel k : Nat) (dbconn : Option (Fin N)) (s : State P N) (h : Consistent s [])
    (hfuel : s.queue.contents.length < fuel) (hs : I dbconn s) :
    ∃ d s', State.dispatchLoop outcomes fuel k dbconn s = .ok (d, s') ∧ Consistent s' [] ∧ I d s' := by
  induction fuel generalizing k dbconn s with
  | zero => omega
  | succ fuel ih =>
    cases dbconn with
    | none => exact ⟨none, s, rfl, h, hs⟩
    | some c =>
      obtain ⟨queue, ⟨hnil, hnil', hpop, h'⟩ | ⟨i, hcons, hpop, hq, h'⟩⟩ := h.queuPop
      · refine ⟨some c, {s with queue := queue}, ?_, h', hI.empty c s queue hs hnil hnil'⟩
        rw [State.dispatchLoop, hpop]
      · have hlen : queue.contents.length < fuel := by
          rw [hcons, List.length_cons] at hfuel
          omega
        rcases callSender_cases (s := {s with queue := queue}) hq c (outcomes k) with
          ⟨hnone, response, hr, hcall⟩ | ⟨query, hquery, hcall⟩
        · rw [dispatchLoop_refuse hpop hcall (by rw [State.setSlot_self]; exact hq.noHandler),
            refuseTurn_eq]
          exact ih (k + 1) (some c) _ (h'.refuseTurn hq c response) hlen
            (hI.refuse c s queue i response h hs hcons hq hnone hr)
        · have hturn := sendTurn_eq s queue i c query (outcomes k)
          have hsome : ∀ t : State P N, t.pushDbResponding i = s.sendTurn queue i c query (outcomes k) →
              (t.pool i).dbResponseHandler ≠ none := by
            intro t ht hnone
            have hpool := congrArg (fun u : State P N => (u.pool i).dbResponseHandler) ht
            simp only [State.pushDbResponding, State.submit, State.setSlot_self, State.sendTurn,
              Function.update_self, hnone] at hpool
            cases hpool
          rw [dispatchLoop_send hpop hcall (hsome _ hturn), hturn]
          refine ih (k + 1) _ _ (h'.sendTurn hq c query (outcomes k)).getDbconn ?_
            (hI.send c s queue i query (outcomes k) h hs hcons hq hquery)
          rw [getDbconn_queue]
          exact hlen

/-- What each turn keeps, `queu_dispatch` keeps, but for the connection it has left
in hand, which it releases. -/
theorem queuDispatch_induct {I : Option (Fin N) → State P N → Prop} {Q : State P N → Prop}
    (hI : KeptByTurns I) (hnone : ∀ s, I none s → Q s) (hsome : ∀ c s, I (some c) s → Q (s.setUsed c false))
    (outcomes : Nat → Outcome) {s : State P N} (h : Consistent s [])
    (hs : I s.getDbconn.1 s.getDbconn.2) :
    ∃ s', s.queuDispatch outcomes = .ok s' ∧ Consistent s' [] ∧ Q s' := by
  obtain ⟨d, s', hloop, h', hs'⟩ := dispatchLoop_induct hI outcomes (s.getDbconn.2.queue.contents.length + 1) 0
    s.getDbconn.1 s.getDbconn.2 h.getDbconn (Nat.lt_succ_self _) hs
  unfold State.queuDispatch
  simp only [hloop]
  cases d with
  | none => exact ⟨s', rfl, h', hnone s' hs'⟩
  | some c => exact ⟨s'.setUsed c false, rfl, h'.setUsed c false, hsome c s' hs'⟩

/-- The same of a dispatch that has come to its end. -/
theorem queuDispatch_keeps {I : Option (Fin N) → State P N → Prop} {Q : State P N → Prop}
    (hI : KeptByTurns I) (hnone : ∀ s, I none s → Q s) (hsome : ∀ c s, I (some c) s → Q (s.setUsed c false))
    {outcomes : Nat → Outcome} {s s' : State P N} (h : Consistent s [])
    (hs : I s.getDbconn.1 s.getDbconn.2) (hd : s.queuDispatch outcomes = .ok s') : Q s' := by
  obtain ⟨t, ht, _, hQ⟩ := queuDispatch_induct hI hnone hsome outcomes h hs
  rw [hd] at ht
  cases ht
  exact hQ

theorem consistent_dispatch {s : State P N} (h : Consistent s []) (outcomes : Nat → Outcome) :
    ∃ s', s.queuDispatch outcomes = .ok s' ∧ Consistent s' [] := by
  have hkept : KeptByTurns fun (_ : Option (Fin N)) (_ : State P N) => True :=
    ⟨fun _ _ _ _ _ _ => trivial, fun _ _ _ _ _ _ _ _ _ _ _ => trivial,
      fun _ _ _ _ _ _ _ _ _ _ _ => trivial⟩
  obtain ⟨s', hs', h', _⟩ := queuDispatch_induct (Q := fun _ => True) hkept (fun _ _ => trivial)
    (fun _ _ _ => trivial) outcomes h trivial
  exact ⟨s', hs', h'⟩

theorem consistent_of_dispatch {s s' : State P N} {outcomes : Nat → Outcome} (h : Consistent s [])
    (hd : s.queuDispatch outcomes = .ok s') : Consistent s' [] := by
  obtain ⟨u, hu, hcons⟩ := consistent_dispatch h outcomes
  rw [hu] at hd
  cases hd
  exact hcons

/-! ### A completion -/

namespace State

/-- The state when the completed operation is no longer pending. -/
def completed (s : State P N) (k : Nat) : State P N := {s with pending := s.pending.eraseIdx k}

/-- The slot and the record after a read. -/
def afterRead (s : State P N) (i : Fin P) (data : List UInt8) : State P N :=
  (s.setSlot i {s.pool i with buffer := memcpy (s.pool i).buffer data}).note
    (.received (s.client i) (memcpy (s.pool i).buffer data))

@[simp] theorem afterRead_buffer (s : State P N) (i : Fin P) (data : List UInt8) :
    ((s.afterRead i data).pool i).buffer = memcpy (s.pool i).buffer data := by
  unfold afterRead note
  rw [setSlot_self]

end State

/-- What the completion of `p` does, with `s` the state without `p`. -/
inductive Handled (s : State P N) (c : Completion) (p : Pending P) : State P N → Prop where
  /-- It failed: the slot is forgotten. -/
  | failed (hresult : c.result < 0) : Handled s c p s
  /-- A connection was accepted; another slot accepts the next one. -/
  | accepted (j : Fin P) (hop : p.op = .accept) (hresult : 0 ≤ c.result)
      (hfree : (s.pool j).ring = false) (hne : j ≠ p.slot) :
      Handled s c p {s with
        pool := Function.update (Function.update s.pool p.slot
          {ReqRes.zero with ring := true, lastEvent := .reading, clientFd := c.result}) j
            {ReqRes.zero with ring := true}
        pending := s.pending ++ [⟨.read, p.slot⟩] ++ [⟨.accept, j⟩]
        client := Function.update s.client p.slot s.accepted
        accepted := s.accepted + 1}
  /-- A request was read and answered: it was refused, or is for another route than
  the two that use the database. -/
  | answered (response : List UInt8) (r : ReqRes (Fin N)) (hop : p.op = .read) (hresult : 0 ≤ c.result)
      (hno : ¬ WantsDatabase ((s.afterRead p.slot c.data).pool p.slot).buffer)
      (hr : Answered ((s.afterRead p.slot c.data).pool p.slot) r response)
      (hresponse : Refusal response ∨ ∃ d, requestParser ((s.afterRead p.slot c.data).pool p.slot).buffer =
        .ok d ∧ (d.uri = .exit ∨ d.uri = .ping)) :
      Handled s c p {s.afterRead p.slot c.data with
        pool := Function.update s.pool p.slot {r with lastEvent := .writing}
        pending := s.pending ++ [⟨.write, p.slot⟩]
        log := (s.afterRead p.slot c.data).log ++ [.wrote (s.client p.slot) r.buffer none]}
  /-- A request was read and queued. -/
  | queued (queue : Queue (Fin P)) (r : ReqRes (Fin N)) (hop : p.op = .read) (hresult : 0 ≤ c.result)
      (hbuffer : r.buffer = ((s.afterRead p.slot c.data).pool p.slot).buffer) (hr : QueuedSlot r)
      (hpush : s.queue.queuPush p.slot = .ok queue) :
      Handled s c p {s.afterRead p.slot c.data with
        pool := Function.update s.pool p.slot r
        queue := queue}
  /-- A reply was waited for on connection `d`, and the request answered. -/
  | replied (d : Fin N) (conn : PGconn) (r : ReqRes (Fin N)) (handler : Handler) (hop : p.op = .dbRead)
      (hresult : 0 ≤ c.result) (hhandler : (s.pool p.slot).dbResponseHandler = some handler)
      (hdbconn : (s.pool p.slot).dbconn = some d)
      (hcall : handler.call c.polls (s.pool p.slot) (s.conns d) = .ok (r, conn)) :
      Handled s c p {s with
        pool := Function.update s.pool p.slot {r with lastEvent := .writing}
        used := Function.update s.used d false
        conns := Function.update s.conns d conn
        pending := s.pending ++ [⟨.write, p.slot⟩]
        log := s.log ++ [.wrote (s.client p.slot) r.buffer (s.conns d)]}
  /-- A response was written: the connection is closed. -/
  | written (hop : p.op = .write) (hresult : 0 ≤ c.result) :
      Handled s c p {s with
        pool := Function.update s.pool p.slot {s.pool p.slot with lastEvent := .closing}
        pending := s.pending ++ [⟨.close, p.slot⟩]}
  /-- The connection was closed: the slot is freed. -/
  | closed (hop : p.op = .close) (hresult : 0 ≤ c.result) :
      Handled s c p {s with pool := Function.update s.pool p.slot .zero}

section Events
variable {s s' : State P N} {c : Completion} {p : Pending P}

theorem onAccepted_cases (h : Consistent s [p.slot]) (hop : p.op = .accept) (hresult : 0 ≤ c.result)
    (hslot : SlotFor p.op (s.pool p.slot)) (hs : s.onAccepted p.slot c.result = .ok s') :
    Handled s c p s' ∧ Consistent s' [] := by
  rw [hop] at hslot
  have hzero : s.pool p.slot = {ReqRes.zero with ring := true} := hslot
  obtain ⟨j, hfree, hcons, rfl⟩ := (h.pushReading hslot).pushAccepting hs
  refine ⟨?_, hcons⟩
  have hne : j ≠ p.slot := by
    rintro rfl
    simp [State.pushReading, State.submit, State.setSlot, hzero] at hfree
  have hfree' : (s.pool j).ring = false := by
    simpa [State.pushReading, State.submit, State.setSlot, hne] using hfree
  have hstate := Handled.accepted (s := s) j hop hresult hfree' hne
  convert hstate using 1
  simp only [State.pushReading, State.submit, State.setSlot, hzero]

theorem onRead_cases (h : Consistent (s.afterRead p.slot c.data) [p.slot]) (hop : p.op = .read)
    (hresult : 0 ≤ c.result) (hslot : SlotFor p.op (s.pool p.slot))
    (hs : (s.afterRead p.slot c.data).onRead p.slot = .ok s') : Handled s c p s' ∧ Consistent s' [] := by
  obtain ⟨fd, hfd⟩ : ∃ fd, s.pool p.slot =
      {ReqRes.zero with ring := true, lastEvent := .reading, clientFd := fd} := by
    rw [hop] at hslot
    exact hslot
  have hsender : ((s.afterRead p.slot c.data).pool p.slot).dbRequestSender = none := by
    simp only [State.afterRead, State.note, State.setSlot_self, hfd]
    rfl
  have hhandler : ((s.afterRead p.slot c.data).pool p.slot).dbResponseHandler = none := by
    simp only [State.afterRead, State.note, State.setSlot_self, hfd]
    rfl
  have hring : ((s.afterRead p.slot c.data).pool p.slot).ring = true :=
    h.hand p.slot (List.mem_cons_self ..)
  have hpool : ∀ r : ReqRes (Fin N), (s.afterRead p.slot c.data).setSlot p.slot r =
      {s.afterRead p.slot c.data with pool := Function.update s.pool p.slot r} := by
    intro r
    simp only [State.afterRead, State.note, State.setSlot, Function.update_idem]
  unfold State.onRead at hs
  simp only [State.setSlot_self] at hs
  have hanswer : ∀ response, Answered ((s.afterRead p.slot c.data).pool p.slot)
      (controller ((s.afterRead p.slot c.data).pool p.slot)) response →
      (Refusal response ∨ ∃ d, requestParser ((s.afterRead p.slot c.data).pool p.slot).buffer = .ok d ∧
        (d.uri = .exit ∨ d.uri = .ping)) → Handled s c p s' ∧ Consistent s' [] := by
    intro response hr hresponse
    obtain ⟨toExit, heq⟩ := hr
    have hnone : (controller ((s.afterRead p.slot c.data).pool p.slot)).dbRequestSender = none := by
      rw [heq]
      exact hsender
    rw [if_pos hnone] at hs
    cases hs
    constructor
    · have hstate := Handled.answered (s := s) response _ hop hresult
        (fun hwants => controller_wants hwants hnone) ⟨toExit, heq⟩ hresponse
      convert hstate using 1
      rw [hpool]
      simp only [State.pushWriting, State.submit, State.setSlot, State.note, Function.update_self,
        Function.update_idem]
      rfl
    · exact (h.setSlot (by rw [heq]; exact hring)).pushWriting none
  rcases controller_cases ((s.afterRead p.slot c.data).pool p.slot) with
    ⟨response, _, hr, heq⟩ | ⟨response, _, d, hd, huri, hr⟩ | ⟨sender, d, heq, hwaiting⟩
  · exact hanswer response (by rw [heq]; exact .of_static _ _) (.inl hr)
  · exact hanswer response hr (.inr ⟨d, hd, huri⟩)
  · rw [if_neg (by rw [heq]; simp)] at hs
    have hqueued : QueuedSlot (controller ((s.afterRead p.slot c.data).pool p.slot)) := by
      refine ⟨?_, hwaiting, ?_⟩
      · rw [heq]; exact hring
      · rw [heq]; exact hhandler
    obtain ⟨queue, hpush, hcons, _⟩ := (h.setSlot hqueued.ring).queuPush
      (by rw [State.setSlot_self]; exact hqueued)
    rw [hpush] at hs
    cases hs
    constructor
    · have hstate := Handled.queued (s := s) queue _ hop hresult (by rw [heq]) hqueued hpush
      convert hstate using 1
      rw [hpool]
    · exact hcons

theorem onDbResponding_cases (h : Consistent s [p.slot]) (hop : p.op = .dbRead) (hresult : 0 ≤ c.result)
    (hs : s.onDbResponding p.slot c.polls = .ok s') : Handled s c p s' ∧ Consistent s' [] := by
  unfold State.onDbResponding at hs
  split at hs
  · cases hs
  · cases hs
  · rename_i handler d hhandler hdbconn
    split at hs
    · cases hs
    · rename_i r conn hcall
      have hring : (s.pool p.slot).ring = true := h.hand p.slot (List.mem_cons_self ..)
      have hr : r.dbconn = some d ∧ r.ring = true := by
        have hreported : ∀ res, Reported (s.pool p.slot) res r → r.dbconn = some d ∧ r.ring = true := by
          intro res hrep
          cases hrep with
          | failed => exact ⟨hdbconn, hring⟩
          | value => exact ⟨hdbconn, hring⟩
        rcases handler_cases hcall with ⟨_, _, hrep⟩ | ⟨_, _, hrep⟩
        · exact hreported _ hrep
        · exact hreported _ hrep
      rw [hr.1] at hs
      simp only [State.releaseDbconn] at hs
      cases hs
      constructor
      · have hstate := Handled.replied (s := s) d conn r handler hop hresult hhandler hdbconn hcall
        convert hstate using 1
        simp only [State.pushWriting, State.setUsed, State.setConn, State.submit, State.setSlot, State.note,
          Function.update_self, Function.update_idem]
      · have hslot := h.setSlot hr.2
        have hconn : Consistent (((s.setSlot p.slot r).setConn d conn).setUsed d false) [p.slot] :=
          hslot.congr rfl rfl rfl
        exact hconn.pushWriting _

/-- The events, one for each kind of operation. -/
theorem onEvent_cases (h : Consistent (s.fill c p) [p.slot]) (hslot : SlotFor p.op (s.pool p.slot))
    (hresult : 0 ≤ c.result) (hs : (s.fill c p).onEvent p.slot c = .ok s') :
    Handled s c p s' ∧ Consistent s' [] := by
  have hfill : p.op ≠ .read → s.fill c p = s := fun hne => if_neg fun hread => hne hread.1
  unfold State.onEvent at hs
  cases hop : p.op with
  | accept =>
    rw [hfill (by simp [hop])] at h hs
    have hzero : s.pool p.slot = {ReqRes.zero with ring := true} := by
      rw [hop] at hslot
      exact hslot
    simp only [show (s.pool p.slot).lastEvent = .acceptting by rw [hzero]; rfl] at hs
    exact onAccepted_cases h hop hresult hslot hs
  | read =>
    have hread : s.fill c p = s.afterRead p.slot c.data := if_pos ⟨hop, hresult⟩
    rw [hread] at h hs
    have hevent : ((s.afterRead p.slot c.data).pool p.slot).lastEvent = .reading := by
      rw [hop] at hslot
      obtain ⟨fd, hfd⟩ := hslot
      simp only [State.afterRead, State.note, State.setSlot_self, hfd]
    simp only [hevent] at hs
    exact onRead_cases h hop hresult hslot hs
  | write =>
    rw [hfill (by simp [hop])] at h hs
    rw [hop] at hslot
    simp only [hslot.2] at hs
    cases hs
    exact ⟨.written hop hresult, h.pushCloseConnection⟩
  | close =>
    rw [hfill (by simp [hop])] at h hs
    rw [hop] at hslot
    simp only [hslot.2] at hs
    cases hs
    exact ⟨.closed hop hresult, h.deinitReqres⟩
  | dbRead =>
    rw [hfill (by simp [hop])] at h hs
    rw [hop] at hslot
    simp only [hslot.2.1] at hs
    exact onDbResponding_cases h hop hresult hs

end Events

theorem handle_eq {s : State P N} {c : Completion} {p : Pending P} (hp : s.pending[c.index]? = some p)
    (hpossible : c.possible p.op = true) : s.handle c =
      match if c.result < 0 then .ok ((s.completed c.index).fill c p)
        else ((s.completed c.index).fill c p).onEvent p.slot c with
      | .error e => .error e
      | .ok t => if (t.pool p.slot).toExit then .error .exited else .ok t := by
  unfold State.handle
  simp only [hp, hpossible]
  rfl

/-- What a completion does: one case for each event, and one for a failure. -/
theorem handle_cases {s s' : State P N} {c : Completion} (h : Consistent s []) (hs : s.handle c = .ok s') :
    ∃ p, s.pending[c.index]? = some p ∧ SlotFor p.op (s.pool p.slot) ∧
      Consistent (s.completed c.index) [p.slot] ∧ Handled (s.completed c.index) c p s' ∧
        Consistent s' [] := by
  cases hp : s.pending[c.index]? with
  | none =>
    unfold State.handle at hs
    rw [hp] at hs
    cases hs
  | some p =>
    cases hpossible : c.possible p.op with
    | false =>
      unfold State.handle at hs
      simp only [hp, hpossible] at hs
      cases hs
    | true =>
      obtain ⟨hslot, hcomplete⟩ : _ ∧ Consistent (s.completed c.index) [p.slot] := h.complete hp
      refine ⟨p, rfl, hslot, hcomplete, ?_⟩
      rw [handle_eq hp hpossible] at hs
      by_cases hresult : c.result < 0
      · have hfill : (s.completed c.index).fill c p = s.completed c.index :=
          if_neg fun hread => absurd hread.2 (not_le.mpr hresult)
        rw [if_pos hresult, hfill] at hs
        simp only at hs
        split at hs
        · cases hs
        · cases hs
          exact ⟨.failed hresult, hcomplete.drop⟩
      · rw [if_neg hresult] at hs
        split at hs
        · cases hs
        · rename_i t ht
          split at hs
          · cases hs
          · cases hs
            have hfill : Consistent ((s.completed c.index).fill c p) [p.slot] := by
              unfold State.fill
              split
              · exact (hcomplete.setSlot (r := {s.pool p.slot with
                  buffer := memcpy (s.pool p.slot).buffer c.data}) hslot.ring).congr rfl rfl rfl
              · exact hcomplete
            exact onEvent_cases hfill hslot (not_lt.mp hresult) ht

/-! ### Every run -/

theorem consistent_zero : Consistent (State.zero : State P N) [] := by
  refine ⟨⟨_, isLine_empty⟩, ?_, nofun, ?_, nofun, fun _ _ => rfl⟩
  · exact List.nodup_nil
  · intro i hi
    cases hi

/-- The first accept is pending when the server is about to wait for the first time. -/
theorem start_cases {s : State P N} (hs : (State.start : Except Stop (State P N)) = .ok s) :
    ∃ (i : Fin P) (t : State P N) (outcomes : Nat → Outcome),
      t = {State.zero with
        pool := Function.update (fun _ => .zero) i {ReqRes.zero with ring := true}
        pending := [⟨.accept, i⟩]} ∧ Consistent t [] ∧ t.queuDispatch outcomes = .ok s := by
  unfold State.start at hs
  split at hs
  · cases hs
  · rename_i t hpush
    obtain ⟨i, _, hcons, ht⟩ := consistent_zero.pushAccepting hpush
    exact ⟨i, t, _, ht, hcons, hs⟩

/-- A turn is a completion, unless the wait was interrupted, and a dispatch. -/
theorem step_cases {s s' : State P N} {input : Input} (hs : s.step input = .ok s') :
    (∃ c outcomes t, input = .completes c outcomes ∧ s.handle c = .ok t ∧ t.queuDispatch outcomes = .ok s') ∨
      ∃ outcomes, input = .interrupted outcomes ∧ s.queuDispatch outcomes = .ok s' := by
  cases input with
  | completes c outcomes =>
    simp only [State.step] at hs
    split at hs
    · cases hs
    · rename_i t ht
      exact .inl ⟨c, outcomes, t, rfl, ht, hs⟩
  | interrupted outcomes => exact .inr ⟨outcomes, rfl, hs⟩
  | fails => cases hs

theorem consistent_step {s s' : State P N} {input : Input} (h : Consistent s [])
    (hs : s.step input = .ok s') : Consistent s' [] := by
  rcases step_cases hs with ⟨c, outcomes, t, rfl, ht, hd⟩ | ⟨outcomes, rfl, hd⟩
  · obtain ⟨_, _, _, _, _, htcons⟩ := handle_cases h ht
    exact consistent_of_dispatch htcons hd
  · exact consistent_of_dispatch h hd

theorem consistent_start {s : State P N} (hs : (State.start : Except Stop (State P N)) = .ok s) :
    Consistent s [] := by
  obtain ⟨_, t, outcomes, _, ht, hd⟩ := start_cases hs
  exact consistent_of_dispatch ht hd

end Rinha.Server
