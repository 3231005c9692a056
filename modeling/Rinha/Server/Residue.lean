import Rinha.Server.Fatal

/-! What a slot keeps of the clients before.

A slot that `init_reqres` hands out is all zero but for its ring. It stays so until
the read for its connection is done, so what `controller` makes of a request is a
matter of the bytes that were read. -/
namespace Rinha.Server
open Library Request Client

variable {P N : Nat}

/-- Nothing of an earlier client is left. -/
structure ReqRes.Clean {κ : Type*} (r : ReqRes κ) : Prop where
  buffer : r.buffer = List.replicate (maxReqRespSize + 1) 0
  dbRequestSender : r.dbRequestSender = none
  dbResponseHandler : r.dbResponseHandler = none
  dbData : r.dbData = none
  dbconn : r.dbconn = none
  toExit : r.toExit = false

/-- Two slots with the same response, the same database request and the same
`to_exit`; what a slot keeps of its database connection may be of another type. -/
structure ReqRes.Alike {κ κ' : Type*} (r : ReqRes κ) (r' : ReqRes κ') : Prop where
  buffer : r.buffer = r'.buffer
  dbRequestSender : r.dbRequestSender = r'.dbRequestSender
  dbResponseHandler : r.dbResponseHandler = r'.dbResponseHandler
  dbData : r.dbData = r'.dbData
  toExit : r.toExit = r'.toExit

/-- The state in which the `switch` is come to with this event, and the slot that the
operation was for. -/
def State.switches (s : State P N) (event : Event) (c : Completion) : Option (Fin P × State P N) :=
  match s.pending[c.index]? with
  | none => none
  | some p =>
    let t := (s.completed c.index).fill c p
    if c.possible p.op ∧ 0 ≤ c.result ∧ (t.pool p.slot).lastEvent = event then some (p.slot, t) else none

/-- The state in which a completion has `init_reqres` called. -/
def State.allocates (s : State P N) (c : Completion) : Option (State P N) :=
  (s.switches .acceptting c).map fun (i, t) => t.accept i c.result

/-- The slot as `controller` leaves it, when a completion has it called. -/
def State.controlled (s : State P N) (c : Completion) : Option (ReqRes (Fin N)) :=
  (s.switches .reading c).map fun (i, t) => controller (t.pool i)

/-- Where `init_reqres` is called, the slot it hands out is clean. -/
def HandsOutClean (s : State P N) : Input → Prop
  | .completes c _ => ∀ t i u, s.allocates c = some t → t.initReqres = some (i, u) → (u.pool i).Clean
  | .interrupted _ => True
  | .fails => True

/-! ### One turn -/

theorem clean_zero {κ : Type*} : ({ReqRes.zero with ring := true} : ReqRes κ).Clean :=
  ⟨rfl, rfl, rfl, rfl, rfl, rfl⟩

/-- What `init_reqres` hands out was free, and a free slot is all zero. -/
theorem Consistent.clean {s t : State P N} {hand : List (Fin P)} {i : Fin P} (h : Consistent s hand)
    (hinit : s.initReqres = some (i, t)) : (t.pool i).Clean := by
  obtain ⟨_, rfl, _⟩ := h.initReqres hinit
  rw [State.setSlot_self]
  exact clean_zero

theorem switches_some {s t : State P N} {event : Event} {c : Completion} {i : Fin P}
    (h : s.switches event c = some (i, t)) : ∃ p, s.pending[c.index]? = some p ∧ 0 ≤ c.result ∧ i = p.slot ∧
      t = (s.completed c.index).fill c p ∧ (t.pool i).lastEvent = event := by
  unfold State.switches at h
  split at h
  · cases h
  · rename_i p hp
    simp only [Option.ite_none_right_eq_some, Option.some.injEq, Prod.mk.injEq] at h
    obtain ⟨⟨_, hresult, hevent⟩, rfl, rfl⟩ := h
    exact ⟨p, hp, hresult, rfl, rfl, hevent⟩

/-- A completion that comes to the `switch` is handled from there. -/
theorem handle_switches {s t : State P N} {event : Event} {c : Completion} {i : Fin P}
    (h : s.switches event c = some (i, t)) :
    s.handle c =
      match t.onEvent i c with
      | .error e => .error e
      | .ok u => if (u.pool i).toExit then .error .exited else .ok u := by
  unfold State.switches at h
  split at h
  · cases h
  · rename_i p hp
    simp only [Option.ite_none_right_eq_some, Option.some.injEq, Prod.mk.injEq] at h
    obtain ⟨⟨hpossible, hresult, _⟩, rfl, rfl⟩ := h
    unfold State.handle
    simp only [hp, hpossible, Bool.not_true, Bool.false_eq_true, if_false, if_neg (not_lt.mpr hresult)]
    rfl

/-- One that does not, and is handled, is of an operation that has failed. -/
theorem handle_unswitched {s u : State P N} {c : Completion} (h : ∀ event, s.switches event c = none)
    (hu : s.handle c = .ok u) : c.result < 0 := by
  by_contra hresult
  unfold State.handle at hu
  split at hu
  · cases hu
  · rename_i p hp
    split at hu
    · cases hu
    · rename_i hpossible
      have hswitch := h (((s.completed c.index).fill c p).pool p.slot).lastEvent
      unfold State.switches at hswitch
      rw [hp] at hswitch
      simp only [ite_eq_right_iff, reduceCtorEq, imp_false] at hswitch
      exact hswitch ⟨by simpa using hpossible, not_lt.mp hresult, trivial⟩

/-- At an accept, `init_reqres` is what the handling begins with. -/
theorem onEvent_allocates {s t : State P N} {c : Completion} {i : Fin P} (h : s.switches .acceptting c = some (i, t)) :
    s.allocates c = some (t.accept i c.result) ∧ t.onEvent i c = (t.accept i c.result).pushAccepting := by
  obtain ⟨_, _, _, _, _, hevent⟩ := switches_some h
  refine ⟨?_, ?_⟩
  · unfold State.allocates
    rw [h]
    rfl
  · unfold State.onEvent
    rw [hevent]
    rfl

/-- At a read it is `controller`. -/
theorem onEvent_controlled {s t : State P N} {c : Completion} {i : Fin P} (h : s.switches .reading c = some (i, t)) :
    s.controlled c = some (controller (t.pool i)) ∧ t.onEvent i c = t.onRead i := by
  obtain ⟨_, _, _, _, _, hevent⟩ := switches_some h
  refine ⟨?_, ?_⟩
  · unfold State.controlled
    rw [h]
    rfl
  · unfold State.onEvent
    rw [hevent]

/-- The last event of a slot while the operation is pending. -/
def Op.event : Op → Event
  | accept => .acceptting
  | read => .reading
  | write => .writing
  | close => .closing
  | dbRead => .dbResponding

theorem Op.event_injective : Function.Injective Op.event := by
  intro op op' h
  cases op <;> cases op' <;> first | rfl | cases h

theorem SlotFor.event {op : Op} {r : ReqRes (Fin N)} (h : SlotFor op r) : r.lastEvent = op.event := by
  cases op with
  | accept => rw [show r = _ from h]; rfl
  | read =>
    obtain ⟨fd, rfl⟩ := h
    rfl
  | write => exact h.2
  | close => exact h.2
  | dbRead => exact h.2.1

theorem fill_lastEvent (s : State P N) (c : Completion) (p : Pending P) :
    ((s.fill c p).pool p.slot).lastEvent = (s.pool p.slot).lastEvent := by
  unfold State.fill
  split
  · simp only [State.note, State.setSlot_self]
  · rfl

/-- The slot that `controller` is given holds the bytes that were read, and zeros. -/
theorem controlled_eq {s : State P N} (h : Consistent s []) {c : Completion} {r : ReqRes (Fin N)}
    (hr : s.controlled c = some r) : ∃ fd, r = controller
      {ReqRes.zero with
        ring := true
        lastEvent := .reading
        clientFd := fd
        buffer := memcpy (List.replicate (maxReqRespSize + 1) 0) c.data} := by
  obtain ⟨⟨i, t⟩, hswitch, rfl⟩ := Option.map_eq_some_iff.mp hr
  obtain ⟨p, hp, hresult, rfl, rfl, hevent⟩ := switches_some hswitch
  obtain ⟨hslot, _⟩ := h.complete hp
  rw [fill_lastEvent] at hevent
  have hop : p.op = .read := Op.event_injective (hslot.event.symm.trans hevent)
  rw [hop] at hslot
  obtain ⟨fd, hfd⟩ := hslot
  refine ⟨fd, ?_⟩
  have hread : (s.completed c.index).fill c p = (s.completed c.index).afterRead p.slot c.data :=
    if_pos ⟨hop, hresult⟩
  show controller (((s.completed c.index).fill c p).pool p.slot) = _
  rw [hread]
  simp only [State.afterRead, State.note, State.setSlot_self, State.completed, hfd]
  rfl

/-- `controller` looks at the buffer alone. -/
theorem controller_alike {κ κ' : Type*} {r : ReqRes κ} {r' : ReqRes κ'} (h : r.Alike r') :
    (controller r).Alike (controller r') := by
  have hstatic : ∀ response, (r.setStaticResponse response).Alike (r'.setStaticResponse response) :=
    fun response => ⟨by simp only [ReqRes.setStaticResponse, h.buffer], h.dbRequestSender,
      h.dbResponseHandler, h.dbData, h.toExit⟩
  unfold controller
  rw [← h.buffer]
  cases requestParser r.buffer with
  | error e =>
    cases e with
    | memory => exact hstatic _
    | invalid => exact hstatic _
  | ok d =>
    simp only
    split
    · exact ⟨(hstatic _).buffer, h.dbRequestSender, h.dbResponseHandler, h.dbData, rfl⟩
    split
    · exact hstatic _
    split
    · exact hstatic _
    split
    · exact hstatic _
    split
    · exact ⟨rfl, rfl, h.dbResponseHandler, rfl, h.toExit⟩
    split
    · exact ⟨rfl, rfl, h.dbResponseHandler, rfl, h.toExit⟩
    · exact ⟨by simp only [ReqRes.setStaticResponse], h.dbRequestSender, h.dbResponseHandler, rfl, h.toExit⟩

theorem handsOutClean {s : State P N} (h : Consistent s []) (input : Input) : HandsOutClean s input := by
  cases input with
  | completes c outcomes =>
    intro t i u ht hinit
    obtain ⟨⟨j, v⟩, hswitch, rfl⟩ := Option.map_eq_some_iff.mp ht
    obtain ⟨p, hp, _, rfl, rfl, hevent⟩ := switches_some hswitch
    obtain ⟨hslot, hcomplete⟩ := h.complete hp
    rw [fill_lastEvent] at hevent
    have hop : p.op = .accept := Op.event_injective (hslot.event.symm.trans hevent)
    have hfill : (s.completed c.index).fill c p = s.completed c.index :=
      if_neg fun hread => by simp [hop] at hread
    rw [hop] at hslot
    have haccept : Consistent (((s.completed c.index).fill c p).accept p.slot c.result) [] := by
      rw [hfill]
      exact hcomplete.pushReading hslot
    exact haccept.clean hinit
  | interrupted => trivial
  | fails => trivial

/-! ### Every run -/

/-- **No residue.** In every run the slots that are handed out are clean. And in any two
runs, whatever the clients before, two reads that leave the same bytes have the
same made of them. -/
theorem no_residue (P N P' N' : Nat) :
    (∀ i (t : State P N), State.zero.initReqres = some (i, t) → (t.pool i).Clean) ∧
    (∀ (s : State P N) inputs, State.start = .ok s → EachInput State.step HandsOutClean s inputs) ∧
    ∀ (s t : State P N) (s' t' : State P' N') inputs inputs' (c c' : Completion) r r',
      State.start = .ok s → run State.step s inputs = .ok t → t.controlled c = some r →
      State.start = .ok s' → run State.step s' inputs' = .ok t' → t'.controlled c' = some r' →
      c.data = c'.data → r.Alike r' := by
  refine ⟨fun i t hinit => consistent_zero.clean hinit, fun s inputs hs => ?_, ?_⟩
  · exact eachInput_of_all (I := fun s => Consistent s []) (fun _ _ _ => consistent_step)
      (fun _ input h => handsOutClean h input) (consistent_start hs) inputs
  · intro s t s' t' inputs inputs' c c' r r' hs ht hr hs' ht' hr' hdata
    have hreached : ∀ {P N : Nat} {s t : State P N} {inputs : List Input}, State.start = .ok s →
        run State.step s inputs = .ok t → Consistent t [] := by
      intro P N s t inputs hs ht
      exact (throughout_of_all (I := fun s => Consistent s []) (fun _ _ _ => consistent_step)
        (consistent_start hs) inputs).last ht
    obtain ⟨fd, rfl⟩ := controlled_eq (hreached hs ht) hr
    obtain ⟨fd', rfl⟩ := controlled_eq (hreached hs' ht') hr'
    rw [hdata]
    exact controller_alike ⟨rfl, rfl, rfl, rfl, rfl⟩

/-- The ping of a connection. -/
def readsPing : Completion := ⟨0, 22, getPing, []⟩

/-- A ping on a slot that two clients had before is answered as one on a new slot. -/
theorem reused_slot :
    ∃ s t t' : State 2 1, ∃ r r', State.start = .ok s ∧ run State.step s [done 0 5 []] = .ok t ∧
      run State.step s (pingClient ++ pingClient ++ [done 0 7 []]) = .ok t' ∧
      t.controlled readsPing = some r ∧ t'.controlled readsPing = some r' ∧ r.Alike r' := by
  obtain ⟨s, t, hs, ht, hr⟩ := exists_run_ok State.step (State.start : Except Stop (State 2 1)) [done 0 5 []]
    (fun t => (t.controlled readsPing).isSome) true (by decide +kernel)
  obtain ⟨s', t', hs', ht', hr'⟩ := exists_run_ok State.step (State.start : Except Stop (State 2 1))
    (pingClient ++ pingClient ++ [done 0 7 []]) (fun t => (t.controlled readsPing).isSome) true
    (by decide +kernel)
  cases hs.symm.trans hs'
  obtain ⟨r, hr⟩ := Option.isSome_iff_exists.mp hr
  obtain ⟨r', hr'⟩ := Option.isSome_iff_exists.mp hr'
  exact ⟨s, t, t', r, r', hs, ht, ht', hr, hr',
    (no_residue 2 1 2 1).2.2 s t s t' _ _ readsPing readsPing r r' hs ht hr hs ht' hr' rfl⟩

end Rinha.Server
