import Rinha.Client.Exec
import Rinha.Server.Errands
import Rinha.Server.Moments
import Rinha.Server.Outcomes

/-! What `push_writing` is given.

Requests and responses share a slot's buffer, and a response is written over the
request up to its own NUL. At every moment of a turn the bytes that are written are
a response: one of the texts of the program, or a 200 with the reply of the
database. The one way around it is a reply that is as long as the array it is copied
to (`RepliesFit`): `end_transacao_async` leaves no room in it for the NUL, and `%s`
reads on behind it; `end_extrato_async` does, and cuts the reply. -/
namespace Rinha.Server
open Library Request Client Database

variable {P N : Nat} {κ : Type*}

/-- A complete response: a static one, or the 200 with the value of the next result
of the connection that the reply was read from. -/
def IsResponse (source : PGconn) (text : List UInt8) : Prop :=
  text ∈ staticResponses ∨ ∃ res reply, (pqGetResult source).1 = some res ∧ res.tuplesOk = true ∧
    IsValue res reply ∧ text = okText (reply.length + 1) reply

namespace State

/-- Whatever was recorded since is no write, or the write of a response. -/
def OnlyResponses (s u : State P N) : Prop :=
  ∃ new, u.log = s.log ++ new ∧
    ∀ client buffer source, .wrote client buffer source ∈ new → IsResponse source (responseText buffer)

/-- No function reads past an array, and at every moment of the turn only responses
were written in it. -/
def WritesResponses (s : State P N) (input : Input) : Prop :=
  s.step input ≠ .error (.fault .overread) ∧ ∀ u, During s input u → s.OnlyResponses u

/-- A value that the completed wait is answered with is shorter than the array it
is copied to. -/
def RepliesFit (s : State P N) : Input → Prop
  | .completes c _ => ∀ p handler d res reply, s.pending[c.index]? = some p → c.possible p.op = true →
      0 ≤ c.result → (s.pool p.slot).lastEvent = .dbResponding →
      (s.pool p.slot).dbResponseHandler = some handler → (s.pool p.slot).dbconn = some d →
      Completes c.polls (s.conns d) res → IsValue res reply → reply.length < handler.room
  | .interrupted _ => True
  | .fails => True

end State

/-! ### The text in a buffer -/

theorem isResponse_static {response : List UInt8} (h : response ∈ staticResponses) (r : ReqRes κ)
    (source : PGconn) : IsResponse source (responseText (r.setStaticResponse response).buffer) := by
  obtain ⟨hlen, hcstr⟩ := staticResponses_text response h
  rw [responseText_static (hlen.trans (by decide)), hcstr]
  exact .inl h

/-- What is left of a reply that is not too long for a response is all of it. -/
theorem responseText_okReply (r : ReqRes κ) {text : List UInt8} (h0 : ∀ b ∈ text, b ≠ 0)
    (hlen : text.length ≤ 2000) :
    responseText (r.okReply text).buffer = okText (text.length + 1) text := by
  have htext := okText_length (n := text.length + 1) (by omega) text
  have hfits : (okText ((text.length : Int) + 1) text).length < maxReqRespSize :=
    lt_of_le_of_lt htext (by unfold maxReqRespSize; omega)
  unfold ReqRes.okReply snprintf
  rw [List.take_of_length_le (Nat.le_sub_one_of_lt hfits), responseText_memcpy hfits]
  exact cstr_eq_self fun hmem => okText_ne_zero _ h0 0 hmem rfl

/-! ### The functions for the reply -/

/-- Where values fit, the slot is answered with a response. -/
theorem handler_response {handler : Handler} {polls : List Poll} {conn : PGconn}
    (hfits : ∀ res reply, Completes polls conn res → IsValue res reply → reply.length < handler.room)
    (r : ReqRes κ) : handler.call polls r conn ≠ .error .overread ∧
      ∀ r' conn', handler.call polls r conn = .ok (r', conn') → IsResponse conn (responseText r'.buffer) := by
  have hstatic : ∀ response ∈ staticResponses, ∀ conn', handler.call polls r conn =
      .ok (r.setStaticResponse response, conn') → handler.call polls r conn ≠ .error .overread ∧
      ∀ r' conn', handler.call polls r conn = .ok (r', conn') → IsResponse conn (responseText r'.buffer) := by
    intro response hmem conn' hcall
    rw [hcall]
    refine ⟨nofun, fun r' conn' hr => ?_⟩
    cases hr
    exact isResponse_static hmem r conn
  cases hwait : waitDb polls with
  | error f =>
    obtain rfl := waitDb_error hwait
    rw [handler_waitError handler hwait]
    exact ⟨fun hfault => (by cases hfault), fun r' conn' hr => (by cases hr)⟩
  | ok ret =>
    rcases waitDb_cases hwait with rfl | rfl
    · exact hstatic _ handler.refusing_mem _ (handler_waitFails handler hwait r conn)
    have hcall := handler_reads handler hwait r conn
    cases hread : reading handler.size (pqGetResult conn).1 with
    | failed =>
      rw [hread] at hcall
      exact hstatic _ handler.failing_mem _ hcall
    | null =>
      rw [hread] at hcall
      exact hstatic _ handler.refusing_mem _ hcall
    | value text =>
      obtain ⟨res, reply, hres, hok, hvalue, htext⟩ := reading_isValue_iff.mp hread
      have hshort : reply.length < handler.room := hfits res reply ⟨(waitDb_iff polls).mp hwait, hres, hok⟩ hvalue
      have hwhole : text = reply := htext.trans (List.take_of_length_le (Handler.le_size hshort))
      subst hwhole
      simp only [hread, if_pos hshort] at hcall
      rw [hcall]
      refine ⟨nofun, fun r' conn' hr => ?_⟩
      cases hr
      have hroom := handler.room_le
      rw [responseText_okReply r hvalue.ne_zero (by omega)]
      exact .inr ⟨res, text, hres, hok, hvalue, rfl⟩

/-- A reply that is cut to 1999 bytes is in no response: the number in it is one more
than what is left. -/
theorem not_isResponse_cut {source : PGconn} {res : PGresult} {reply : List UInt8}
    (hres : (pqGetResult source).1 = some res) (hvalue : IsValue res reply) (hlong : 2000 ≤ reply.length) :
    ¬ IsResponse source (okText ((1999 : Nat) + 1) (reply.take 1999)) := by
  have hcut : (reply.take 1999).length = 1999 := by
    rw [List.length_take]
    omega
  have hlen := length_okText ((1999 : Nat) + 1) (reply.take 1999)
  intro h
  rcases h with hmem | ⟨res', reply', hres', _, hvalue', htext⟩
  · have := (staticResponses_text _ hmem).1
    omega
  · obtain rfl := Option.some.inj (hres.symm.trans hres')
    obtain rfl := hvalue.unique hvalue'
    have hdigits : 3 < (decimal (reply.length + 1)).length := by
      refine not_le.mp fun hle => ?_
      rw [decimal, List.length_map, Nat.length_toDigits_le_iff (by decide) (by decide)] at hle
      omega
    have hlen' := congrArg List.length htext
    rw [length_okText, length_okText, hcut] at hlen'
    have hfour : (decimalInt ((1999 : Nat) + 1)).length = 4 := by decide +kernel
    have hnumber : decimalInt ((reply.length : Int) + 1) = decimal (reply.length + 1) := rfl
    rw [hfour, hnumber] at hlen'
    omega

/-- A value that does not fit is read past, or cut. -/
theorem handler_long {handler : Handler} {polls : List Poll} {conn : PGconn} {res : PGresult}
    {reply : List UInt8} (hres : Completes polls conn res) (hvalue : IsValue res reply)
    (hlong : handler.room ≤ reply.length) (r : ReqRes κ) :
    handler.call polls r conn = .error .overread ∨ ∃ r', handler.call polls r conn = .ok (r', none) ∧
      r'.dbconn = r.dbconn ∧ ¬ IsResponse conn (responseText r'.buffer) := by
  have hread : reading handler.size (pqGetResult conn).1 = .value (reply.take handler.size) :=
    reading_isValue_iff.mpr ⟨res, reply, hres.2.1, hres.2.2, hvalue, rfl⟩
  have hcall := handler_reads handler ((waitDb_iff polls).mpr hres.1) r conn
  simp only [hread] at hcall
  cases handler with
  | endTransacaoAsync =>
    have hlong' : 50 ≤ reply.length := hlong
    have hfull : ¬ (reply.take 50).length < 50 := by
      rw [List.length_take, Nat.min_eq_left hlong']
      exact Nat.lt_irrefl 50
    rw [hcall]
    exact .inl (if_neg hfull)
  | endExtratoAsync =>
    have hlong' : 2000 ≤ reply.length := hlong
    have hcut : (reply.take 1999).length = 1999 := by
      rw [List.length_take]
      omega
    have hfits : (reply.take (Handler.size .endExtratoAsync)).length < Handler.room .endExtratoAsync := by
      show (reply.take 1999).length < 2000
      omega
    rw [if_pos hfits] at hcall
    refine .inr ⟨_, hcall, rfl, ?_⟩
    show ¬ IsResponse conn (responseText (r.okReply (reply.take 1999)).buffer)
    rw [responseText_okReply r (fun b hb => hvalue.ne_zero b (List.mem_of_mem_take hb)) (by omega), hcut]
    exact not_isResponse_cut hres.2.1 hvalue hlong'

/-! ### The other functions -/

/-- `controller` answers, or leaves the function that sends a command. -/
theorem controller_response {r : ReqRes κ} (h : (controller r).dbRequestSender = none) (source : PGconn) :
    IsResponse source (responseText (controller r).buffer) := by
  rcases controller_cases r with
    ⟨response, hmem, _, heq⟩ | ⟨response, hmem, _, _, _, toExit, heq⟩ | ⟨sender, d, heq, _⟩
  · rw [heq]
    exact isResponse_static hmem r source
  · rw [heq]
    exact isResponse_static hmem r source
  · rw [heq] at h
    cases h

/-- The functions that send a command answer, or leave the one for the reply; and
they never read past an array. -/
theorem sender_response (sender : Sender) (o : Sending) (r : ReqRes κ) (conn source : PGconn) :
    sender.call o r conn = .error .null ∨ ∃ r' conn', sender.call o r conn = .ok (r', conn') ∧
      (r'.dbResponseHandler = none → IsResponse source (responseText r'.buffer)) := by
  rcases sender_answers sender o r conn with ⟨_, hnull⟩ | ⟨_, _, hok, ⟨response, hmem, rfl⟩ | ⟨handler, rfl⟩⟩
  · exact .inl hnull
  · exact .inr ⟨_, _, hok, fun _ => isResponse_static hmem _ source⟩
  · exact .inr ⟨_, _, hok, fun hnone => by cases hnone⟩

/-! ### The turns -/

namespace State

theorem onlyResponses_of_log {s u : State P N} (h : u.log = s.log) : s.OnlyResponses u := by
  refine ⟨[], by rw [h, List.append_nil], fun client buffer source hmem => ?_⟩
  cases hmem

theorem OnlyResponses.trans {s t u : State P N} (h : s.OnlyResponses t) (h' : t.OnlyResponses u) :
    s.OnlyResponses u := by
  obtain ⟨new, hlog, hnew⟩ := h
  obtain ⟨new', hlog', hnew'⟩ := h'
  refine ⟨new ++ new', by rw [hlog', hlog, List.append_assoc], fun client buffer source hmem => ?_⟩
  rcases List.mem_append.mp hmem with hmem | hmem
  · exact hnew client buffer source hmem
  · exact hnew' client buffer source hmem

theorem OnlyResponses.congr {s t u : State P N} (h : s.OnlyResponses t) (hlog : u.log = t.log) :
    s.OnlyResponses u := h.trans (onlyResponses_of_log hlog)

/-- A record that is not of a write. -/
theorem onlyResponses_note (s : State P N) {o : Obs} (ho : ∀ client buffer source, o ≠ .wrote client buffer source) :
    s.OnlyResponses (s.note o) := by
  refine ⟨[o], rfl, fun client buffer source hmem => ?_⟩
  exact absurd (List.mem_singleton.mp hmem).symm (ho client buffer source)

theorem onlyResponses_noteSent (s : State P N) (i : Fin P) (before after : PGconn) :
    s.OnlyResponses (s.noteSent i before after) := by
  unfold noteSent
  split
  · have hcounted : s.OnlyResponses {s with sent := s.sent + 1} := onlyResponses_of_log rfl
    exact hcounted.trans (onlyResponses_note _ fun client buffer source heq => by cases heq)
  · exact onlyResponses_of_log rfl

theorem onlyResponses_pushWriting {s : State P N} {i : Fin P} {source : PGconn}
    (h : IsResponse source (responseText (s.pool i).buffer)) : s.OnlyResponses (s.pushWriting i source) := by
  refine ⟨[.wrote (s.client i) (s.pool i).buffer source], ?_, fun client buffer source' hmem => ?_⟩
  · show _ ++ [_] = _
    simp only [submit, setSlot]
  · cases List.mem_singleton.mp hmem
    exact h

theorem onlyResponses_fill (s : State P N) (c : Completion) (p : Pending P) : s.OnlyResponses (s.fill c p) := by
  unfold fill
  split
  · have hset : s.OnlyResponses (s.setSlot p.slot {s.pool p.slot with
        buffer := memcpy (s.pool p.slot).buffer c.data}) := onlyResponses_of_log rfl
    exact hset.trans (onlyResponses_note _ fun client buffer source heq => by cases heq)
  · exact onlyResponses_of_log rfl

/-- What was read leaves the slot as it was, but for the buffer. -/
theorem fill_slot (s : State P N) (c : Completion) (p : Pending P) :
    ((s.fill c p).pool p.slot).lastEvent = (s.pool p.slot).lastEvent ∧
      ((s.fill c p).pool p.slot).dbResponseHandler = (s.pool p.slot).dbResponseHandler ∧
      ((s.fill c p).pool p.slot).dbconn = (s.pool p.slot).dbconn ∧ (s.fill c p).conns = s.conns := by
  unfold fill
  split
  · simp only [note, setSlot_self]
    exact ⟨trivial, trivial, trivial, rfl⟩
  · exact ⟨rfl, rfl, rfl, rfl⟩

theorem onlyResponses_event {s t : State P N} {i : Fin P} {c : Completion}
    (hfits : ∀ handler d res reply, (s.pool i).lastEvent = .dbResponding →
      (s.pool i).dbResponseHandler = some handler → (s.pool i).dbconn = some d →
      Completes c.polls (s.conns d) res → IsValue res reply → reply.length < handler.room)
    (h : s.onEvent i c = .ok t) : s.OnlyResponses t := by
  cases onEvent_reacted h with
  | accepted hu ht =>
    apply onlyResponses_of_log
    unfold pushAccepting initReqres at ht
    split at ht
    · cases ht
    · rename_i hinit
      cases ht
      split at hinit
      · cases hinit
        rw [hu]
        rfl
      · cases hinit
  | answered hnone =>
    have hset : s.OnlyResponses (s.setSlot i (controller (s.pool i))) := onlyResponses_of_log rfl
    refine hset.trans (onlyResponses_pushWriting ?_)
    rw [setSlot_self]
    exact controller_response hnone none
  | queued queue => exact onlyResponses_of_log rfl
  | @replied handler d d' r conn hevent hhandler hdbconn hcall =>
    have hset : s.OnlyResponses (((s.setSlot i r).setConn d conn).setUsed d' false) := onlyResponses_of_log rfl
    refine hset.trans (onlyResponses_pushWriting ?_)
    show IsResponse _ (responseText ((s.setSlot i r).pool i).buffer)
    rw [setSlot_self]
    have hresponse := handler_response
      (fun res reply => hfits handler d res reply hevent hhandler hdbconn) (s.pool i)
    exact hresponse.2 r conn hcall
  | written => exact onlyResponses_of_log rfl
  | closed => exact onlyResponses_of_log rfl

theorem onlyResponses_turn {s t : State P N} {i : Fin P} {c : Fin N} {o : Outcome}
    (h : s.dispatchTurn i c o = .ok t) : s.OnlyResponses t := by
  obtain ⟨sender, r, conn, _, hcall, hcases⟩ := dispatchTurn_called h
  have hsent : s.OnlyResponses (((s.setSlot i r).setConn c conn).noteSent i (s.conns c) conn) := by
    have hset : s.OnlyResponses ((s.setSlot i r).setConn c conn) := onlyResponses_of_log rfl
    exact hset.trans (onlyResponses_noteSent _ i (s.conns c) conn)
  have hself : (((s.setSlot i r).setConn c conn).noteSent i (s.conns c) conn).pool i = r := by
    rw [(noteSent_frame ..).1]
    exact s.setSlot_self i r
  generalize ((s.setSlot i r).setConn c conn).noteSent i (s.conns c) conn = u at hsent hself hcases
  rcases hcases with ⟨hnone, rfl⟩ | ⟨_, rfl⟩
  · refine (hsent.congr (u := u.setUsed c false) rfl).trans (onlyResponses_pushWriting ?_)
    show IsResponse none (responseText (u.pool i).buffer)
    rw [hself]
    rcases sender_response sender ⟨s.sent, o.sent, o.results⟩ ((s.pool i).setDbconn c) (s.conns c) none with
      hnull | ⟨r', conn', hok, hresponse⟩
    · cases hcall.symm.trans hnull
    · cases hcall.symm.trans hok
      exact hresponse hnone
  · exact hsent.congr rfl

theorem onlyResponses_dispatch {s t : State P N} {outcomes : Nat → Outcome} {k : Nat} {hand : Option (Fin N)}
    (ht : InDispatch outcomes s k hand t) : s.OnlyResponses t := by
  refine InDispatch.rule (I := s.OnlyResponses) (fun t h => ?_) (fun t queue h => h.congr rfl)
    (fun t i c o t' h hturn => h.trans (onlyResponses_turn hturn)) (onlyResponses_of_log rfl) ht
  unfold getDbconn
  split
  · exact h.congr rfl
  · exact h

/-- A turn of the loop fails only where there is no function to call. -/
theorem dispatchTurn_error {s : State P N} {i : Fin P} {c : Fin N} {o : Outcome} {e : Stop}
    (h : s.dispatchTurn i c o = .error e) : e = .fault .null := by
  unfold dispatchTurn callSender at h
  simp only at h
  split at h
  · cases h
    rename_i hcall
    split at hcall
    · cases hcall
      rfl
    · rename_i sender _
      rcases sender_response sender ⟨s.sent, o.sent, o.results⟩ ((s.pool i).setDbconn c) (s.conns c) none with
        hnull | ⟨r', conn', hok, _⟩
      · rw [hnull] at hcall
        cases hcall
        rfl
      · rw [hok] at hcall
        cases hcall
  · split at h <;> cases h

/-- Nothing in a dispatch reads past an array. -/
theorem dispatchLoop_overread (outcomes : Nat → Outcome) (fuel k : Nat) (hand : Option (Fin N)) (s : State P N) :
    dispatchLoop outcomes fuel k hand s ≠ .error (.fault .overread) := by
  induction fuel generalizing k hand s with
  | zero => cases hand <;> exact fun h => by cases h
  | succ fuel ih =>
    cases hand with
    | none => exact fun h => by cases h
    | some c =>
      cases hpop : s.queue.queuPop with
      | error f =>
        rw [dispatchLoop, hpop]
        exact fun h => by cases h
      | ok popped =>
        obtain ⟨found, queue⟩ := popped
        cases found with
        | none =>
          rw [dispatchLoop, hpop]
          exact fun h => by cases h
        | some i =>
          rw [dispatchLoop_turn hpop]
          cases hturn : (s.setQueue queue).dispatchTurn i c (outcomes k) with
          | ok t =>
            simp only
            split
            · exact ih (k + 1) (some c) t
            · exact ih (k + 1) t.getDbconn.1 t.getDbconn.2
          | error e =>
            rw [dispatchTurn_error hturn]
            exact fun h => by cases h

theorem queuDispatch_overread (outcomes : Nat → Outcome) (s : State P N) :
    s.queuDispatch outcomes ≠ .error (.fault .overread) := by
  intro h
  unfold queuDispatch at h
  simp only at h
  split at h
  · rename_i hloop
    cases h
    exact dispatchLoop_overread _ _ _ _ _ hloop
  · cases h
  · cases h

end State

/-! ### Every turn -/

namespace State

/-- The values that the function for the reply can be given in this slot fit. -/
def SlotFits (s : State P N) (i : Fin P) (polls : List Poll) : Prop :=
  ∀ handler d res reply, (s.pool i).lastEvent = .dbResponding → (s.pool i).dbResponseHandler = some handler →
    (s.pool i).dbconn = some d → Completes polls (s.conns d) res → IsValue res reply → reply.length < handler.room

theorem RepliesFit.slotFits {s : State P N} {c : Completion} {outcomes : Nat → Outcome} {p : Pending P}
    (h : s.RepliesFit (.completes c outcomes)) (hp : s.pending[c.index]? = some p)
    (hpossible : c.possible p.op = true) (hresult : 0 ≤ c.result) :
    SlotFits ((s.completed c.index).fill c p) p.slot c.polls := by
  obtain ⟨hevent, hhandler, hdbconn, hconns⟩ := fill_slot (s.completed c.index) c p
  intro handler d res reply hevent' hhandler' hdbconn' hres
  rw [hevent] at hevent'
  rw [hhandler] at hhandler'
  rw [hdbconn] at hdbconn'
  rw [hconns] at hres
  exact h p handler d res reply hp hpossible hresult hevent' hhandler' hdbconn' hres

/-- Where the values fit, no event's function reads past an array. -/
theorem onEvent_overread {s : State P N} {i : Fin P} {c : Completion} (hfits : SlotFits s i c.polls) :
    s.onEvent i c ≠ .error (.fault .overread) := by
  intro h
  unfold State.onEvent at h
  split at h
  · unfold onAccepted State.pushAccepting at h
    split at h <;> cases h
  · unfold onRead at h
    simp only at h
    split at h
    · cases h
    · split at h <;> cases h
  · rename_i hevent
    unfold onDbResponding at h
    split at h
    · cases h
    · cases h
    · rename_i handler d hhandler hdbconn
      have hresponse := handler_response
        (fun res reply => hfits handler d res reply hevent hhandler hdbconn) (s.pool i)
      split at h
      · rename_i f hcall
        cases h
        exact hresponse.1 hcall
      · rename_i r conn _
        unfold releaseDbconn at h
        cases hr : r.dbconn with
        | none =>
          rw [hr] at h
          cases h
        | some d' =>
          rw [hr] at h
          cases h
  · cases h
  · cases h

theorem handle_overread {s : State P N} {c : Completion} {outcomes : Nat → Outcome}
    (hfits : s.RepliesFit (.completes c outcomes)) : s.handle c ≠ .error (.fault .overread) := by
  intro h
  cases hp : s.pending[c.index]? with
  | none =>
    unfold State.handle at h
    rw [hp] at h
    cases h
  | some p =>
    cases hpossible : c.possible p.op with
    | false =>
      unfold State.handle at h
      simp only [hp, hpossible] at h
      cases h
    | true =>
      rw [handle_eq hp hpossible] at h
      by_cases hresult : c.result < 0
      · rw [if_pos hresult] at h
        simp only at h
        split at h <;> cases h
      · rw [if_neg hresult] at h
        split at h
        · rename_i e hevent
          cases h
          exact onEvent_overread (hfits.slotFits hp hpossible (not_lt.mp hresult)) hevent
        · split at h <;> cases h

theorem onlyResponses_handle {s u : State P N} {c : Completion} {outcomes : Nat → Outcome}
    (hfits : s.RepliesFit (.completes c outcomes)) (hu : InHandle s c u) : s.OnlyResponses u := by
  have hfill : ∀ p, s.OnlyResponses ((s.completed c.index).fill c p) := by
    intro p
    have hcompleted : s.OnlyResponses (s.completed c.index) := onlyResponses_of_log rfl
    exact hcompleted.trans (onlyResponses_fill ..)
  cases hu with
  | completed hp hpossible => exact hfill _
  | reacted hp hpossible hresult ht =>
    exact (hfill _).trans (onlyResponses_event (hfits.slotFits hp hpossible hresult) ht)

theorem writesResponses_of_fit {s : State P N} {input : Input} (hfits : s.RepliesFit input) :
    s.WritesResponses input := by
  cases input with
  | completes c outcomes =>
    refine ⟨fun h => ?_, fun u hu => ?_⟩
    · simp only [State.step] at h
      split at h
      · rename_i e he
        cases h
        exact handle_overread hfits he
      · exact queuDispatch_overread _ _ h
    · cases hu with
      | waits => exact onlyResponses_of_log rfl
      | handles hu => exact onlyResponses_handle hfits hu
      | dispatches ht hu => exact (onlyResponses_handle hfits (handle_inHandle ht)).trans (onlyResponses_dispatch hu)
  | interrupted outcomes =>
    refine ⟨queuDispatch_overread _ _, fun u hu => ?_⟩
    cases hu with
    | waits => exact onlyResponses_of_log rfl
    | interrupted hu => exact onlyResponses_dispatch hu
  | fails =>
    refine ⟨fun h => (by cases h), fun u hu => ?_⟩
    cases hu with
    | waits => exact onlyResponses_of_log rfl

/-- A value that does not fit is read past, or cut and written. -/
theorem fits_of_writesResponses {s : State P N} {input : Input} (h : s.WritesResponses input) :
    s.RepliesFit input := by
  cases input with
  | interrupted outcomes => trivial
  | fails => trivial
  | completes c outcomes =>
    obtain ⟨hread, honly⟩ := h
    intro p handler d res reply hp hpossible hresult hevent hhandler hdbconn hres hvalue
    by_contra hnot
    obtain ⟨hevent', hhandler', hdbconn', hconns⟩ := fill_slot (s.completed c.index) c p
    have hfilled : s.OnlyResponses ((s.completed c.index).fill c p) := honly _ (.handles (.completed hp hpossible))
    have hhandle := handle_eq hp hpossible
    have hreacted := fun t => InHandle.reacted (t := t) hp hpossible hresult
    generalize (s.completed c.index).fill c p = u at hevent' hhandler' hdbconn' hconns hfilled hhandle hreacted
    replace hevent' : (u.pool p.slot).lastEvent = .dbResponding := hevent'.trans hevent
    replace hhandler' : (u.pool p.slot).dbResponseHandler = some handler := hhandler'.trans hhandler
    replace hdbconn' : (u.pool p.slot).dbconn = some d := hdbconn'.trans hdbconn
    replace hconns : u.conns d = s.conns d := congrFun hconns d
    rw [if_neg (not_lt.mpr hresult)] at hhandle
    have hres' : Completes c.polls (u.conns d) res := by
      rw [hconns]
      exact hres
    rcases handler_long hres' hvalue (not_lt.mp hnot) (u.pool p.slot) with
      hcall | ⟨r, hcall, hdbconn, hno⟩
    · have hfault : u.onEvent p.slot c = .error (.fault .overread) := by
        simp only [State.onEvent, hevent', onDbResponding, hhandler', hdbconn', hcall]
      rw [hfault] at hhandle
      apply hread
      simp only [State.step, hhandle]
    · have hevent : u.onEvent p.slot c =
          .ok ((((u.setSlot p.slot r).setConn d none).setUsed d false).pushWriting p.slot (u.conns d)) := by
        simp only [State.onEvent, hevent', onDbResponding, hhandler', hdbconn', hcall, releaseDbconn, hdbconn]
      obtain ⟨new, hlog, _⟩ := hfilled
      obtain ⟨new', hlog', hnew'⟩ := honly _ (.handles (hreacted _ hevent))
      have hwhole : s.log ++ new' = s.log ++ (new ++ [.wrote (u.client p.slot) r.buffer (u.conns d)]) := by
        rw [← hlog', ← List.append_assoc, ← hlog]
        simp only [State.pushWriting, State.note, State.submit, State.setUsed, State.setConn, State.setSlot,
          Function.update_self]
      rw [List.append_cancel_left hwhole] at hnew'
      exact hno (hnew' _ _ _ (List.mem_append_right new (List.mem_singleton.mpr rfl)))

end State

/-- For every state, and whatever completes and becomes of the commands: nothing is
read past an array and what `push_writing` is given at any moment of the turn is a
complete response exactly when a value that is answered with fits the array it is
copied to. -/
theorem writesResponses_iff (s : State P N) (input : Input) : s.WritesResponses input ↔ s.RepliesFit input := by
  constructor
  · intro h
    exact State.fits_of_writesResponses h
  · intro h
    exact State.writesResponses_of_fit h

/-! ### A long reply -/

/-- A connection is accepted, a transaction read, and its command answered with a
value of 50 bytes. -/
def longAnswer : List Input :=
  [done 0 5 [],
    .completes ⟨0, plainPost.length, plainPost, []⟩ fun _ =>
      ⟨true, [oneValue (some (List.replicate 50 120))]⟩]

/-- `end_transacao_async` reads past its array. -/
theorem long_reply_overread :
    ∃ s t : State 2 1, State.start = .ok s ∧ run State.step s longAnswer = .ok t ∧
      t.step (done 1 0 []) = .error (.fault .overread) ∧ ¬ t.WritesResponses (done 1 0 []) := by
  obtain ⟨s, t, hs, ht, hstep⟩ := exists_run_ok State.step (State.start : Except Stop (State 2 1)) longAnswer
    (fun t => match t.step (done 1 0 []) with | .error e => some e | .ok _ => none) (some (.fault .overread))
    (by decide +kernel)
  split at hstep
  · rename_i e he
    cases hstep
    exact ⟨s, t, hs, ht, he, fun h => h.1 he⟩
  · cases hstep

end Rinha.Server
