import Rinha.Server.WireProofs

/-! In which runs every connection is delivered its response.

A turn delivers what is to be delivered exactly when the write that completes in it, if
one does, is whole; unless it is the one in which the loop returns. -/
namespace Rinha.Server
open Library Request Client

variable {P N : Nat}

/-! ### A turn -/

theorem handle_ioseen {s : State P N} {c : Completion} {p : Pending P} (hp : s.pending[c.index]? = some p)
    (hpossible : c.possible p.op = true) : s.handle c =
      match s.ioseen c p with
      | .error e => .error e
      | .ok t => if (t.pool p.slot).toExit then .error .exited else .ok t := handle_eq hp hpossible

/-- A completion that is handled is a possible one, and no request for `/exit`. -/
theorem handle_ok {s t : State P N} {c : Completion} (hs : Consistent s []) (h : Staying s)
    (ht : s.handle c = .ok t) {p : Pending P} (hp : s.pending[c.index]? = some p) : Staying t ∧ ¬ Exits s c p := by
  cases hpossible : c.possible p.op with
  | false =>
    unfold State.handle at ht
    simp only [hp, hpossible] at ht
    cases ht
  | true =>
    rw [handle_ioseen hp hpossible] at ht
    split at ht
    · cases ht
    · rename_i u hu
      split at ht
      · cases ht
      · rename_i hexit
        cases ht
        obtain ⟨hother, hself⟩ := ioseen_toExit hs h hp hu
        rw [← hself]
        refine ⟨fun j => ?_, hexit⟩
        by_cases hj : j = p.slot
        · rw [hj]
          simpa using hexit
        · exact hother j hj

theorem onEvent_ne_exited {s : State P N} {i : Fin P} {c : Completion} : s.onEvent i c ≠ .error .exited := by
  intro h
  unfold State.onEvent at h
  split at h
  · unfold State.onAccepted State.pushAccepting at h
    split at h <;> cases h
  · unfold State.onRead at h
    simp only at h
    split at h
    · cases h
    · split at h <;> cases h
  · unfold State.onDbResponding State.releaseDbconn at h
    split at h
    · cases h
    · cases h
    · split at h
      · cases h
      · split at h
        · rename_i heq
          cases h
          split at heq <;> cases heq
        · cases h
  · cases h
  · cases h

/-- The loop returns at a request for `/exit`. -/
theorem handle_exited {s : State P N} {c : Completion} (hs : Consistent s []) (h : Staying s)
    (hexit : s.handle c = .error .exited) {p : Pending P} (hp : s.pending[c.index]? = some p) : Exits s c p := by
  cases hpossible : c.possible p.op with
  | false =>
    unfold State.handle at hexit
    simp only [hp, hpossible] at hexit
    cases hexit
  | true =>
    rw [handle_ioseen hp hpossible] at hexit
    split at hexit
    · rename_i e he
      cases hexit
      unfold State.ioseen at he
      split at he
      · cases he
      · exact absurd he onEvent_ne_exited
    · rename_i u hu
      split at hexit
      · rename_i htrue
        exact (ioseen_toExit hs h hp hu).2.mp htrue
      · cases hexit

/-- What a turn does, with the connections. -/
inductive Turned (w : Wired P N) (i : WireInput) : Wired P N → Prop where
  | completed (c : Completion) (outcomes : Nat → Outcome) (p : Pending P) (s t : State P N)
      (hinput : i.input = .completes c outcomes) (hp : w.state.pending[c.index]? = some p)
      (hbound : p.op = .write → c.result ≤ ((responseText (w.state.pool p.slot).buffer).length : Int))
      (hhandle : w.state.handle c = .ok s) (hdispatch : s.queuDispatch outcomes = .ok t) :
      Turned w i ⟨t, w.net.complete w.state c p, false⟩
  | interrupted (outcomes : Nat → Outcome) (t : State P N) (hinput : i.input = .interrupted outcomes)
      (hdispatch : w.state.queuDispatch outcomes = .ok t) : Turned w i ⟨t, w.net, false⟩
  | exits (c : Completion) (outcomes : Nat → Outcome) (p : Pending P) (w' : Wired P N)
      (hinput : i.input = .completes c outcomes) (hp : w.state.pending[c.index]? = some p)
      (hhandle : w.state.handle c = .error .exited) (hover : w'.returned = true) : Turned w i w'

theorem returned_of_step {w w' : Wired P N} {i : WireInput} (hstep : w.step i = .ok w') : w.returned = false := by
  unfold Wired.step at hstep
  split at hstep
  · cases hstep
  · rename_i hover
    simpa using hover

theorem turned_of_step {w w' : Wired P N} {i : WireInput} (hs : Consistent w.state [])
    (hstep : w.step i = .ok w') : Turned w i w' := by
  obtain ⟨input, leaving⟩ := i
  unfold Wired.step at hstep
  split at hstep
  · cases hstep
  · cases input with
    | completes c outcomes =>
      simp only at hstep
      split at hstep
      · cases hstep
      · rename_i p hp
        split at hstep
        · cases hstep
        · rename_i hbound
          have hbound' : p.op = .write →
              c.result ≤ ((responseText (w.state.pool p.slot).buffer).length : Int) :=
            fun hop => not_lt.mp fun hlt => hbound ⟨hop, hlt⟩
          split at hstep
          · rename_i t ht
            cases hstep
            rcases step_cases ht with ⟨c', outcomes', s, hinput, hhandle, hdispatch⟩ | ⟨_, hinput, _⟩
            · cases hinput
              exact .completed c outcomes p s t rfl hp hbound' hhandle hdispatch
            · cases hinput
          · rename_i e he
            split at hstep
            · rename_i hexited
              subst hexited
              have hhandle : w.state.handle c = .error .exited := by
                unfold State.step at he
                simp only at he
                split at he
                · rename_i e' he'
                  cases he
                  exact he'
                · rename_i s hs'
                  obtain ⟨_, _, _, _, _, hcons⟩ := handle_cases hs hs'
                  obtain ⟨u, hu, _⟩ := consistent_dispatch hcons outcomes
                  rw [hu] at he
                  cases he
              unfold Wired.leave at hstep
              split at hstep
              · cases hstep
                exact .exits c outcomes p _ rfl hp hhandle rfl
              · cases hstep
            · cases hstep
    | interrupted outcomes =>
      simp only at hstep
      split at hstep
      · rename_i t ht
        cases hstep
        exact .interrupted outcomes t rfl ht
      · cases hstep
    | fails =>
      simp only [State.step] at hstep
      cases hstep

/-! ### Every run -/

/-- What is kept while the loop goes on. -/
structure Running (w : Wired P N) : Prop where
  consistent : Consistent w.state []
  staged : Staged w.net w.state
  staying : Staying w.state

/-- While the loop goes on, a turn keeps this, and what was delivered is delivered after
it exactly when the turn's write is whole and its request not for `/exit`. -/
theorem running_step {w w' : Wired P N} {i : WireInput} (h : w.returned = false → Running w)
    (hstep : w.step i = .ok w') : (w'.returned = false → Running w') ∧
      (AllDelivered w → ((AllDelivered w' ∧ w'.returned = false) ↔ (WholeWrite w i ∧ ¬ ReadsExit w i))) := by
  obtain ⟨hs, hstaged, hstaying⟩ := h (returned_of_step hstep)
  cases turned_of_step hs hstep with
  | completed c outcomes p s t hinput hp hbound hhandle hdispatch =>
    obtain ⟨p', hp', _, hcompleted, hhandled, hcons⟩ := handle_cases hs hhandle
    cases hp.symm.trans hp'
    have hmem := List.mem_of_getElem? hp
    have hrest : Staged w.net (w.state.completed c.index) :=
      hstaged.sub rfl rfl rfl rfl (fun q hq => List.mem_of_mem_eraseIdx hq) fun _ hj => hj
    have hbusy : ∀ j, Busy (w.state.completed c.index) j → Busy w.state j := by
      intro j hj
      rcases hj with ⟨q, hq, hop, rfl⟩ | hj
      · exact .inl ⟨q, List.mem_of_mem_eraseIdx hq, hop, rfl⟩
      · exact .inr hj
    obtain ⟨hstaged', hdelivered⟩ := staged_handled hcompleted hrest (hstaged.pending p hmem)
      (fun hop j hj hne heq => hne (hstaged.apart j p.slot (hbusy j hj) (.inl ⟨p, hmem, hop, rfl⟩) heq)) hhandled
    obtain ⟨hstaged'', hsame⟩ := staged_dispatch hcons hstaged' hdispatch
    obtain ⟨hstaying', hno⟩ := handle_ok hs hstaying hhandle hp
    refine ⟨fun _ => ⟨consistent_of_dispatch hcons hdispatch, hstaged'',
      staying_dispatch hcons hstaying' hdispatch⟩, fun hall => ?_⟩
    have hnot : ¬ ReadsExit w i := by
      unfold ReadsExit
      rw [hinput]
      intro hexit
      obtain ⟨q, hq, hexits⟩ := hexit
      cases hp.symm.trans hq
      exact hno hexits
    have hwhole : WholeWrite w i ↔ (p.op = .write → 0 ≤ c.result →
        (responseText (w.state.pool p.slot).buffer).length ≤ c.result.toNat) := by
      unfold WholeWrite
      rw [hinput]
      constructor
      · intro hw hop hge
        have heq := hw p hp hop hge
        omega
      · intro hle q hq hop hge
        cases hp.symm.trans hq
        have hle' := hle hop hge
        have hge' := hbound hop
        omega
    have hdone := hsame.trans (hdelivered hall)
    rw [hwhole]
    exact ⟨fun hw => ⟨hdone.mp hw.1, hnot⟩, fun hw => ⟨hdone.mpr hw.1, rfl⟩⟩
  | interrupted outcomes t hinput hdispatch =>
    obtain ⟨hstaged', hsame⟩ := staged_dispatch hs hstaged hdispatch
    refine ⟨fun _ => ⟨consistent_of_dispatch hs hdispatch, hstaged', staying_dispatch hs hstaying hdispatch⟩,
      fun hall => iff_of_true ?_ ?_⟩
    · exact ⟨hsame.mpr hall, rfl⟩
    · unfold WholeWrite ReadsExit
      rw [hinput]
      exact ⟨trivial, fun h => h⟩
  | exits c outcomes p _ hinput hp hhandle hover =>
    refine ⟨fun hno => ?_, fun hall => iff_of_false (fun hw => ?_) fun hw => hw.2 ?_⟩
    · rw [hover] at hno
      cases hno
    · rw [hover] at hw
      cases hw.2
    · unfold ReadsExit
      rw [hinput]
      exact ⟨p, hp, handle_exited hs hstaying hhandle hp⟩

/-- The server when it waits for the first time; no connection was accepted yet. -/
def Wired.ofState (s : State P N) : Wired P N := ⟨s, .empty, false⟩

theorem running_start {s : State P N} (hs : (State.start : Except Stop (State P N)) = .ok s) :
    Running (Wired.ofState s) ∧ AllDelivered (Wired.ofState s) := by
  obtain ⟨i, t, outcomes, rfl, ht, hd⟩ := start_cases hs
  have huntouched : ∀ client, Untouched Net.empty client := fun _ => ⟨rfl, rfl, rfl⟩
  have hstaged : Staged Net.empty ({State.zero with
      pool := Function.update (fun _ => .zero) i {ReqRes.zero with ring := true}
      pending := [⟨.accept, i⟩]} : State P N) := by
    have hbusy : ∀ j, ¬ Busy ({State.zero with
        pool := Function.update (fun _ => .zero) i {ReqRes.zero with ring := true}
        pending := [⟨.accept, i⟩]} : State P N) j := by
      intro j hj
      rcases hj with ⟨q, hq, hop, _⟩ | hj
      · rw [List.mem_singleton.mp hq] at hop
        exact hop rfl
      · cases hj
    refine ⟨fun q hq => ?_, fun j hj => ?_, fun a _ ha => absurd ha (hbusy a), fun y _ => ⟨rfl, huntouched y⟩⟩
    · rw [List.mem_singleton.mp hq]
      trivial
    · cases hj
  have hstaying : Staying ({State.zero with
      pool := Function.update (fun _ => .zero) i {ReqRes.zero with ring := true}
      pending := [⟨.accept, i⟩]} : State P N) := by
    intro j
    exact toExit_update (s := State.zero) (r := {ReqRes.zero with ring := true}) (fun _ => rfl) rfl j
  obtain ⟨hstaged', hsame⟩ := staged_dispatch ht hstaged hd
  refine ⟨⟨consistent_start hs, hstaged', staying_dispatch ht hstaying hd⟩, hsame.mpr fun y => ?_⟩
  exact (huntouched y).delivered (Nat.zero_le 1)

/-- **One whole response**: every connection is delivered its response, in every state of
a run in which each write is whole and no `/exit` is read. In a run in which the loop
does not return, they are so only when each write is whole. -/
theorem delivered_of_wholeWrites {s : State P N} (hs : State.start = .ok s) (inputs : List WireInput) :
    (EachStep Wired.step (fun w i => WholeWrite w i ∧ ¬ ReadsExit w i) (Wired.ofState s) inputs →
      Throughout Wired.step AllDelivered (Wired.ofState s) inputs) ∧
    (Throughout Wired.step (fun w => AllDelivered w ∧ w.returned = false) (Wired.ofState s) inputs →
      EachStep Wired.step (fun w i => WholeWrite w i ∧ ¬ ReadsExit w i) (Wired.ofState s) inputs) := by
  obtain ⟨hrunning, hall⟩ := running_start hs
  have hiff : Throughout Wired.step (fun w => AllDelivered w ∧ w.returned = false) (Wired.ofState s) inputs ↔
      EachStep Wired.step (fun w i => WholeWrite w i ∧ ¬ ReadsExit w i) (Wired.ofState s) inputs := by
    refine throughout_iff (I := fun w => w.returned = false → Running w) (fun w i w' h hstep => ?_)
      (fun w i w' h hq hstep => ?_) (fun _ => hrunning) ⟨hall, rfl⟩
    · exact (running_step h hstep).1
    · exact (running_step h hstep).2 hq.1
  exact ⟨fun h => (hiff.mpr h).mono fun _ hw => hw.1, hiff.mp⟩

/-! ### A short write, and an exit -/

/-- An input, after which the kernel sends all that it can if the loop returns. -/
def sendsAll (input : Input) : WireInput := ⟨input, ⟨fun _ => 4096, 4096⟩⟩

/-- Of the response to a ping, ten bytes of twenty-one are sent. -/
def shortWrite : List WireInput := [done 0 5 [], done 0 22 getPing, done 1 10 []].map sendsAll

def getExit : List UInt8 := bytes "GET /exit HTTP/1.1\r\n\r\n"

/-- A request for `/exit`. -/
def exitClient : List WireInput := [done 0 5 [], done 0 22 getExit].map sendsAll

/-- A client that reads its response. -/
def wholePing : List WireInput := [done 0 5 [], done 0 22 getPing, done 1 21 [], done 1 0 []].map sendsAll

/-- Where a run of the server and its connections comes to. -/
theorem exists_wired_run {β : Type*} (inputs : List WireInput) (f : Wired P N → β) (b : β)
    (h : (((State.start : Except Stop (State P N)).map Wired.ofState).bind fun w =>
      run Wired.step w inputs).map f = .ok b) :
    ∃ s w, (State.start : Except Stop (State P N)) = .ok s ∧
      run Wired.step (Wired.ofState s) inputs = .ok w ∧ f w = b := by
  obtain ⟨w₀, w, hw₀, hrun, hf⟩ := exists_run_ok Wired.step _ inputs f b h
  obtain ⟨s, hs, rfl⟩ := exists_of_map_ok hw₀
  exact ⟨s, w, hs, hrun, hf⟩

/-- The connection is closed behind a part of its response; and the response to `/exit`
is sent twice. -/
theorem short_and_twice :
    (∃ (s : State 2 1) (w : Wired 2 1), State.start = .ok s ∧
      run Wired.step (Wired.ofState s) shortWrite = .ok w ∧ w.net.closed 0 = true ∧
        w.net.sent 0 = bytes "HTTP/1.1 2" ∧ ¬ AllDelivered w) ∧
      ∃ (s : State 2 1) (w : Wired 2 1), State.start = .ok s ∧
        run Wired.step (Wired.ofState s) exitClient = .ok w ∧ given w.state.log 0 = [okExit "111"] ∧
          w.net.sent 0 = okExit "111" ++ okExit "111" ∧ ¬ AllDelivered w := by
  constructor
  · obtain ⟨s, w, hs, hrun, hw⟩ := exists_wired_run (P := 2) (N := 1) shortWrite
      (fun w => (w.net.closed 0, w.net.failed 0, w.net.sent 0, given w.state.log 0,
        decide (Asked w.state.log 0)))
      (true, false, bytes "HTTP/1.1 2", [okPing], true) (by decide +kernel)
    simp only [Prod.mk.injEq, decide_eq_true_eq] at hw
    obtain ⟨hclosed, hfailed, hsent, hgiven, hasked⟩ := hw
    refine ⟨s, w, hs, hrun, hclosed, hsent, fun hall => ?_⟩
    have hwhole := (hall 0).whole hclosed hfailed hasked
    rw [hgiven, hsent] at hwhole
    exact absurd hwhole (by decide)
  · obtain ⟨s, w, hs, hrun, hw⟩ := exists_wired_run (P := 2) (N := 1) exitClient
      (fun w => (given w.state.log 0, w.net.sent 0)) ([okExit "111"], okExit "111" ++ okExit "111")
      (by decide +kernel)
    obtain ⟨hgiven, hsent⟩ := Prod.mk.inj hw
    refine ⟨s, w, hs, hrun, hgiven, hsent, fun hall => ?_⟩
    have hlen := (hall 0).part.length_le
    rw [hgiven, hsent, List.flatten_singleton, List.length_append] at hlen
    exact absurd hlen (by decide)

/-- The client that reads its response is delivered it. -/
theorem delivered_wholePing :
    ∃ s : State 2 1, State.start = .ok s ∧ (run Wired.step (Wired.ofState s) wholePing).isOk = true ∧
      Throughout Wired.step AllDelivered (Wired.ofState s) wholePing := by
  obtain ⟨s, hs, hrun⟩ := exists_of_map_ok (x := (State.start : Except Stop (State 2 1)))
    (f := fun s => (decide (EachStep Wired.step (fun w i => WholeWrite w i ∧ ¬ ReadsExit w i)
      (Wired.ofState s) wholePing), (run Wired.step (Wired.ofState s) wholePing).isOk))
    (b := (true, true)) (by decide +kernel)
  obtain ⟨hC, hok⟩ := Prod.mk.inj hrun
  exact ⟨s, hs, hok, (delivered_of_wholeWrites hs wholePing).1 (of_decide_eq_true hC)⟩

end Rinha.Server
