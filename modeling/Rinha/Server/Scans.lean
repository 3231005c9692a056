import Rinha.Server.Moments

/-! Where the scans of a buffer end.

What is read from the network is taken for C strings: by the route's expressions
and `sscanf` from the path on, by `cJSON_Parse` from the body on, by `strnlen` from
the start. The last of a slot's 4097 bytes is never written but with 0
(`Enclosed`), and each of these starts at it or in front of it. This is so at every
moment of a turn, also where a request has waited in the queue. -/
namespace Rinha.Server
open Library Http Request Client

variable {P N : Nat} {κ : Type*}

/-- The slot's array ends in 0, and the body that waits in it starts inside it. -/
structure Enclosed (r : ReqRes κ) : Prop where
  length : r.buffer.length = maxReqRespSize + 1
  last : r.buffer[maxReqRespSize]? = some 0
  body : ∀ d, r.dbData = some d → d.bodyLoc ≤ maxReqRespSize

/-- A text that starts in the array, and ends there. -/
def Inside (buffer text : List UInt8) : Prop :=
  ∃ offset, text = buffer.drop offset ∧ offset ≤ maxReqRespSize ∧ EndsInside buffer offset

/-- Every scan of the slot's buffer: of the method and the path (`strstr`, `regexec`
and `sscanf`), of the body where the parser has found it, of the body that waits to
be parsed, and of the response. -/
structure ScansInside (r : ReqRes κ) : Prop where
  last : r.buffer.length = maxReqRespSize + 1 ∧ r.buffer[maxReqRespSize]? = some 0
  target : ∀ q n, phrParseRequest (r.buffer.take maxReqRespSize) 100 = .ok (q, n) →
    Inside r.buffer (q.methodText ++ r.buffer.drop maxReqRespSize) ∧
      Inside r.buffer (q.pathText ++ r.buffer.drop maxReqRespSize)
  parsed : ∀ d, requestParser r.buffer = .ok d → d.bodyLoc ≤ maxReqRespSize ∧ EndsInside r.buffer d.bodyLoc
  waiting : ∀ d, r.dbData = some d → d.bodyLoc ≤ maxReqRespSize ∧ EndsInside r.buffer d.bodyLoc
  written : EndsInside r.buffer 0

/-! ### The scans of a slot -/

theorem bodyLoc_le {buff : List UInt8} {d : RequestData} (h : requestParser buff = .ok d) :
    d.bodyLoc ≤ maxReqRespSize := by
  unfold requestParser at h
  split at h
  · cases h
  rename_i r n hparse
  have hn : n ≤ maxReqRespSize := by
    refine (phrParseRequest_takes hparse).1.trans ?_
    rw [List.length_take]
    exact Nat.min_le_left ..
  simp only at h
  split at h
  · cases h
  split at h
  · cases h
  split at h
  · cases h
  split at h
  · cases h
    exact hn
  split at h
  · cases h
  · cases h
    exact hn

/-- Where the array ends in 0, a text that was found in front of it ends in the array. -/
theorem Enclosed.inside {r : ReqRes κ} (h : Enclosed r) {text : List UInt8}
    (htext : text <:+ r.buffer.take maxReqRespSize) : Inside r.buffer (text ++ r.buffer.drop maxReqRespSize) := by
  obtain ⟨front, hfront⟩ := htext
  have hbuffer : front ++ (text ++ r.buffer.drop maxReqRespSize) = r.buffer := by
    rw [← List.append_assoc, hfront, List.take_append_drop]
  have hlen : front.length ≤ maxReqRespSize := by
    have htake := congrArg List.length hfront
    rw [List.length_append, List.length_take, h.length] at htake
    omega
  refine ⟨front.length, ?_, hlen, endsInside h.last hlen⟩
  conv => rhs; rw [← hbuffer]
  exact List.drop_left.symm

theorem Enclosed.scansInside {r : ReqRes κ} (h : Enclosed r) : ScansInside r := by
  refine ⟨⟨h.length, h.last⟩, fun q n hq => ?_, fun d hd => ?_, fun d hd => ?_, ?_⟩
  · unfold phrParseRequest at hq
    split at hq
    · cases hq
    rename_i hparse
    cases hq
    obtain ⟨hmethod, hpath⟩ := parseRequest_suffix hparse
    exact ⟨h.inside hmethod, h.inside hpath⟩
  · exact ⟨bodyLoc_le hd, endsInside h.last (bodyLoc_le hd)⟩
  · exact ⟨h.body d hd, endsInside h.last (h.body d hd)⟩
  · exact endsInside h.last (Nat.zero_le _)

/-! ### What writes to a buffer -/

theorem enclosed_zero : Enclosed (ReqRes.zero : ReqRes κ) := by
  refine ⟨List.length_replicate, ?_, nofun⟩
  exact List.getElem?_replicate_of_lt (Nat.lt_succ_self _)

theorem Enclosed.congr {r r' : ReqRes κ} (h : Enclosed r) (hbuffer : r'.buffer = r.buffer)
    (hdata : ∀ d, r'.dbData = some d → d.bodyLoc ≤ maxReqRespSize) : Enclosed r' := by
  refine ⟨?_, ?_, hdata⟩
  · rw [hbuffer]; exact h.length
  · rw [hbuffer]; exact h.last

/-- A write of at most 4096 bytes to the front of the array. -/
theorem Enclosed.memcpy {r : ReqRes κ} (h : Enclosed r) {src : List UInt8} (hlen : src.length ≤ maxReqRespSize) :
    Enclosed {r with buffer := memcpy r.buffer src} := by
  refine ⟨?_, ?_, h.body⟩
  · have hle : src.length ≤ r.buffer.length := by
      rw [h.length]
      omega
    exact (length_memcpy hle).trans h.length
  · exact (getElem?_memcpy hlen).trans h.last

theorem Enclosed.setStaticResponse {r : ReqRes κ} (h : Enclosed r) {response : List UInt8}
    (hmem : response ∈ staticResponses) : Enclosed (r.setStaticResponse response) := by
  have hlen := (staticResponses_text response hmem).1
  apply h.memcpy
  rw [List.length_append]
  exact hlen.trans (by decide)

/-! ### The functions of main.c -/

theorem Enclosed.controller {r : ReqRes κ} (h : Enclosed r) : Enclosed (controller r) := by
  rcases controller_cases r with
    ⟨response, hmem, _, heq⟩ | ⟨response, hmem, d, _, _, toExit, heq⟩ | ⟨sender, d, heq, hwaiting⟩
  · rw [heq]
    exact h.setStaticResponse hmem
  · rw [heq]
    exact (h.setStaticResponse hmem).congr rfl h.body
  · obtain ⟨d', hp, _, hd, _⟩ := hwaiting
    rw [heq] at hp hd ⊢
    refine h.congr rfl fun e he => ?_
    cases he
    cases hd
    exact bodyLoc_le hp

theorem Enclosed.sender {r r' : ReqRes κ} {sender : Sender} {o : Sending} {conn conn' : PGconn} (h : Enclosed r)
    (hcall : sender.call o r conn = .ok (r', conn')) : Enclosed r' := by
  have hfreed : Enclosed {r with dbData := none} := h.congr rfl fun d hd => by cases hd
  rcases sender_answers sender o r conn with ⟨_, hnull⟩ | ⟨_, _, hok, ⟨response, hmem, rfl⟩ | ⟨handler, rfl⟩⟩
  · cases hcall.symm.trans hnull
  · cases hcall.symm.trans hok
    exact hfreed.setStaticResponse hmem
  · cases hcall.symm.trans hok
    exact hfreed.congr rfl fun d hd => by cases hd

theorem Enclosed.okReply {r : ReqRes κ} (h : Enclosed r) (text : List UInt8) : Enclosed (r.okReply text) := by
  apply h.memcpy
  rw [snprintf, List.length_append, List.length_take]
  show min (maxReqRespSize - 1) _ + 1 ≤ maxReqRespSize
  have hpos : 0 < maxReqRespSize := by decide
  omega

theorem Enclosed.handler {r r' : ReqRes κ} {handler : Handler} {polls : List Poll} {conn conn' : PGconn}
    (h : Enclosed r) (hcall : handler.call polls r conn = .ok (r', conn')) : Enclosed r' := by
  cases hwait : waitDb polls with
  | error f =>
    rw [handler_waitError handler hwait] at hcall
    cases hcall
  | ok ret =>
    rcases waitDb_cases hwait with rfl | rfl
    · rw [handler_waitFails handler hwait] at hcall
      cases hcall
      exact h.setStaticResponse handler.refusing_mem
    rw [handler_reads handler hwait] at hcall
    split at hcall
    · cases hcall
      exact h.setStaticResponse handler.failing_mem
    · cases hcall
      exact h.setStaticResponse handler.refusing_mem
    · split at hcall
      · cases hcall
        exact h.okReply _
      · cases hcall

/-! ### The loop -/

namespace State

/-- Every slot's array ends in 0. -/
def Enclosed (s : State P N) : Prop := ∀ i, Server.Enclosed (s.pool i)

theorem Enclosed.congr {s s' : State P N} (h : s.Enclosed) (hpool : s'.pool = s.pool) : s'.Enclosed := by
  intro i
  rw [hpool]
  exact h i

theorem Enclosed.setSlot {s : State P N} (h : s.Enclosed) (i : Fin P) {r : ReqRes (Fin N)}
    (hr : Server.Enclosed r) : (s.setSlot i r).Enclosed := by
  intro j
  by_cases hji : j = i
  · rw [hji, setSlot_self]
    exact hr
  · rw [setSlot_ne _ _ hji]
    exact h j

theorem Enclosed.setUsed {s : State P N} (h : s.Enclosed) (c : Fin N) (b : Bool) : (s.setUsed c b).Enclosed :=
  h.congr rfl

theorem Enclosed.setConn {s : State P N} (h : s.Enclosed) (c : Fin N) (conn : PGconn) : (s.setConn c conn).Enclosed :=
  h.congr rfl

theorem Enclosed.setQueue {s : State P N} (h : s.Enclosed) (queue : Queue (Fin P)) : (s.setQueue queue).Enclosed :=
  h.congr rfl

theorem Enclosed.completed {s : State P N} (h : s.Enclosed) (k : Nat) : (s.completed k).Enclosed := h.congr rfl

/-- A slot that differs in other fields than its buffer and what waits in it. -/
theorem Enclosed.setOther {s : State P N} (h : s.Enclosed) (i : Fin P) {r : ReqRes (Fin N)}
    (hbuffer : r.buffer = (s.pool i).buffer) (hdata : r.dbData = (s.pool i).dbData) : (s.setSlot i r).Enclosed := by
  refine h.setSlot i ((h i).congr hbuffer ?_)
  rw [hdata]
  exact (h i).body

theorem Enclosed.pushWriting {s : State P N} (h : s.Enclosed) (i : Fin P) (source : PGconn) :
    (s.pushWriting i source).Enclosed :=
  (h.setOther i (r := {s.pool i with lastEvent := .writing}) rfl rfl).congr rfl

theorem Enclosed.getDbconn {s : State P N} (h : s.Enclosed) : s.getDbconn.2.Enclosed := by
  unfold State.getDbconn
  split
  · exact h.congr rfl
  · exact h

theorem Enclosed.pushAccepting {s s' : State P N} (h : s.Enclosed) (hs : s.pushAccepting = .ok s') :
    s'.Enclosed := by
  unfold State.pushAccepting State.initReqres at hs
  split at hs
  · cases hs
  · rename_i i t hinit
    cases hs
    split at hinit
    · cases hinit
      have hring := h.setOther i (r := {s.pool i with ring := true}) rfl rfl
      exact (hring.setOther i (r := {(s.setSlot i _).pool i with lastEvent := .acceptting}) rfl rfl).congr rfl
    · cases hinit

/-- A read leaves at most 4096 bytes. -/
theorem Enclosed.fill {s : State P N} (h : s.Enclosed) {c : Completion} {p : Pending P}
    (hpossible : c.possible p.op = true) : (s.fill c p).Enclosed := by
  unfold State.fill
  split
  · rename_i hread
    have hlen : c.data.length ≤ maxReqRespSize := by
      simp only [Completion.possible, hread.1, ne_eq, not_true_eq_false, decide_false, Bool.false_or,
        Bool.or_eq_true, Bool.and_eq_true, decide_eq_true_eq] at hpossible
      rcases hpossible with hfailed | hdata
      · exact absurd hfailed (not_lt.mpr hread.2)
      · exact hdata.1
    exact (h.setSlot p.slot ((h p.slot).memcpy hlen)).congr rfl
  · exact h

theorem Enclosed.onEvent {s s' : State P N} (h : s.Enclosed) {i : Fin P} {c : Completion}
    (hs : s.onEvent i c = .ok s') : s'.Enclosed := by
  cases onEvent_reacted hs with
  | accepted ht hu =>
    have hread := h.setOther i (r := {s.pool i with clientFd := c.result, lastEvent := .reading}) rfl rfl
    refine Enclosed.pushAccepting (hread.congr ?_) hu
    rw [ht]
    rfl
  | answered => exact (h.setSlot i (h i).controller).pushWriting i none
  | queued queue => exact (h.setSlot i (h i).controller).setQueue queue
  | replied _ _ _ hcall => exact (((h.setSlot i ((h i).handler hcall)).setConn _ _).setUsed _ false).pushWriting i _
  | written => exact (h.setOther i (r := {s.pool i with lastEvent := .closing}) rfl rfl).congr rfl
  | closed => exact h.setSlot i enclosed_zero

theorem Enclosed.dispatchTurn {s s' : State P N} (h : s.Enclosed) {i : Fin P} {c : Fin N} {o : Outcome}
    (hs : s.dispatchTurn i c o = .ok s') : s'.Enclosed := by
  obtain ⟨sender, r, conn, _, hcall, hcases⟩ := dispatchTurn_called hs
  have hconn : Server.Enclosed ((s.pool i).setDbconn c) := (h i).congr rfl (h i).body
  have hsent : (((s.setSlot i r).setConn c conn).noteSent i (s.conns c) conn).Enclosed :=
    ((h.setSlot i (hconn.sender hcall)).setConn c conn).congr (noteSent_frame ..).1
  generalize ((s.setSlot i r).setConn c conn).noteSent i (s.conns c) conn = u at hsent hcases
  rcases hcases with ⟨_, rfl⟩ | ⟨_, rfl⟩
  · exact (hsent.setUsed c false).pushWriting i none
  · exact (hsent.setOther i (r := {u.pool i with lastEvent := .dbResponding}) rfl rfl).congr rfl

/-- In every moment of a completion. -/
theorem Enclosed.inHandle {s u : State P N} (h : s.Enclosed) {c : Completion} (hu : InHandle s c u) :
    u.Enclosed := by
  cases hu with
  | completed hp hpossible => exact (h.completed _).fill hpossible
  | reacted hp hpossible _ ht => exact ((h.completed _).fill hpossible).onEvent ht

theorem Enclosed.inDispatch {s t : State P N} (h : s.Enclosed) {outcomes : Nat → Outcome} {k : Nat}
    {hand : Option (Fin N)} (ht : InDispatch outcomes s k hand t) : t.Enclosed :=
  InDispatch.rule (fun _ h => h.getDbconn) (fun _ queue h => h.setQueue queue)
    (fun _ _ _ _ _ h hturn => h.dispatchTurn hturn) h ht

/-- In every moment of a turn. -/
theorem Enclosed.during {s u : State P N} (h : s.Enclosed) {input : Input} (hu : During s input u) :
    u.Enclosed := by
  cases hu with
  | waits => exact h
  | handles hu => exact h.inHandle hu
  | dispatches ht hu => exact (h.inHandle (handle_inHandle ht)).inDispatch hu
  | interrupted hu => exact h.inDispatch hu

theorem Enclosed.step {s s' : State P N} {input : Input} (h : s.Enclosed) (hs : s.step input = .ok s') :
    s'.Enclosed := by
  obtain ⟨u, hu, hpool⟩ := exists_during hs
  exact (h.during hu).congr hpool

theorem enclosed_start {s : State P N} (hs : (State.start : Except Stop (State P N)) = .ok s) : s.Enclosed := by
  have hzero : (State.zero : State P N).Enclosed := fun _ => enclosed_zero
  unfold State.start at hs
  split at hs
  · cases hs
  · rename_i t ht
    obtain ⟨k, hand, u, hu, hpool⟩ := inDispatch_of_dispatch hs
    exact ((hzero.pushAccepting ht).inDispatch hu).congr hpool

end State

/-- In every run, whatever is read, sent and answered, and at every moment of the
turn that follows: each slot's array ends in 0, and every scan of it ends in it. -/
theorem scans_inside {s t u : State P N} (hs : (State.start : Except Stop (State P N)) = .ok s)
    (inputs : List Input) (ht : run State.step s inputs = .ok t) (input : Input)
    (hu : State.During t input u) (i : Fin P) : ScansInside (u.pool i) := by
  have hreached : t.Enclosed :=
    (throughout_of_all (fun _ _ _ => State.Enclosed.step) (State.enclosed_start hs) inputs).last ht
  exact (hreached.during hu i).scansInside

/-- The 4096 bytes of a read that fills its buffer, none of them a NUL. -/
def fullRead : Input := .completes ⟨0, 4096, List.replicate 4096 65, []⟩ fun _ => ⟨true, []⟩

/-- A connection is accepted, and such a read is done. -/
theorem scans_inside_full :
    ∃ s t u : State 2 1, State.start = .ok s ∧ run State.step s [done 0 5 []] = .ok t ∧
      State.During t fullRead u ∧ ScansInside (u.pool 0) := by
  obtain ⟨s, t, hs, ht, hpending⟩ := exists_run_ok State.step (State.start : Except Stop (State 2 1)) [done 0 5 []]
    (fun t => t.pending[0]?) (some ⟨.read, 0⟩) (by decide +kernel)
  have hmoment : State.During t fullRead _ :=
    .handles (.completed hpending (by decide +kernel))
  exact ⟨s, t, _, hs, ht, hmoment, scans_inside hs [done 0 5 []] ht fullRead hmoment 0⟩

end Rinha.Server
