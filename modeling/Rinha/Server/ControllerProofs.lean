import Rinha.Client.Exec
import Rinha.Server.Controller

/-! What `controller` and the functions it installs do to a slot and to a connection.

One lemma for each: `controller` answers a request or leaves it `Waiting` with the
function that sends its command (`controller_cases`); that function answers the
request or sends the command its buffer asks for (`sender_cases`); the function
for the reply answers with it (`handler_cases`). -/
namespace Rinha.Server
open Library Request Client

variable {κ : Type*}

/-! ### Responses -/

theorem status_memcpy {response : List UInt8} (h : 12 ≤ response.length) (dst rest : List UInt8) :
    status (memcpy dst (response ++ rest)) = (response.drop 9).take 3 := by
  unfold status memcpy
  rw [List.append_assoc, List.drop_append_of_le_length (by omega), List.take_append_of_le_length]
  rw [List.length_drop]
  omega

/-- What `SET_STATIC_RESPONSE` is used with. -/
def staticResponses : List (List UInt8) :=
  [internalerror "15", unprocessable "19", internalerror "26", unprocessable "40", internalerror "44",
    internalerror "55", internalerror "66", internalerror "79", internalerror "93", unprocessable "98",
    okExit "111", okPing, notfound, badrequest "131", internalerror "147"]

theorem staticResponses_text : ∀ response ∈ staticResponses,
    response.length < 1000 ∧ cstr response = response := by decide +kernel

theorem unprocessable_status (reqres : ReqRes κ) :
    status (reqres.setStaticResponse (unprocessable "19")).buffer = bytes "422" := by
  rw [ReqRes.setStaticResponse, status_memcpy (by decide +kernel)]
  decide +kernel

theorem internalerror_status (reqres : ReqRes κ) :
    status (reqres.setStaticResponse (internalerror "15")).buffer = bytes "500" := by
  rw [ReqRes.setStaticResponse, status_memcpy (by decide +kernel)]
  decide +kernel

/-- The responses of a request that is not served: each is in the text of the program. -/
inductive Refusal : List UInt8 → Prop where
  | internalerror (line : String) : Refusal (Server.internalerror line)
  | unprocessable (line : String) : Refusal (Server.unprocessable line)
  | badrequest (line : String) : Refusal (Server.badrequest line)
  | notfound : Refusal Server.notfound

theorem code_append {a : List UInt8} (h : 12 ≤ a.length) (b : List UInt8) :
    ((a ++ b).drop 9).take 3 = (a.drop 9).take 3 := by
  rw [List.drop_append_of_le_length (by omega), List.take_append_of_le_length]
  rw [List.length_drop]
  omega

/-- Its status is not 200. -/
theorem Refusal.code {response : List UInt8} (h : Refusal response) :
    12 ≤ response.length ∧ (response.drop 9).take 3 ≠ bytes "200" := by
  have hhead : ∀ {a b : List UInt8}, 12 ≤ a.length → (a.drop 9).take 3 ≠ bytes "200" →
      12 ≤ (a ++ b).length ∧ ((a ++ b).drop 9).take 3 ≠ bytes "200" := by
    intro a b hlen hcode
    rw [code_append hlen, List.length_append]
    exact ⟨by omega, hcode⟩
  cases h with
  | internalerror line =>
    unfold Server.internalerror
    rw [List.append_assoc]
    exact hhead (by decide) (by decide)
  | unprocessable line =>
    unfold Server.unprocessable
    rw [List.append_assoc]
    exact hhead (by decide +kernel) (by decide +kernel)
  | badrequest line =>
    unfold Server.badrequest
    rw [List.append_assoc]
    exact hhead (by decide) (by decide)
  | notfound => exact hhead (by decide) (by decide)

/-! ### controller -/

/-- The slot is as `controller` leaves a request for the database: not answered,
with what the parser found and the function that sends the command. -/
def Waiting (reqres : ReqRes κ) : Prop :=
  ∃ reqdata, requestParser reqres.buffer = .ok reqdata ∧ reqdata.id < 6 ∧ reqres.dbData = some reqdata ∧
    ((reqdata.method = .get ∧ reqdata.uri = .extrato ∧
        reqres.dbRequestSender = some .startExtratoAsync) ∨
      (reqdata.method = .post ∧ reqdata.uri = .transacao ∧
        reqres.dbRequestSender = some .startTransacaoAsync))

/-- A slot that differs in its buffer and `to_exit` at most. -/
def Answered (reqres reqres' : ReqRes κ) (response : List UInt8) : Prop :=
  ∃ toExit, reqres' = {reqres.setStaticResponse response with toExit := toExit}

theorem Answered.of_static (reqres : ReqRes κ) (response : List UInt8) :
    Answered reqres (reqres.setStaticResponse response) response := ⟨reqres.toExit, rfl⟩

theorem controller_cases (reqres : ReqRes κ) :
    (∃ response ∈ staticResponses, Refusal response ∧ controller reqres = reqres.setStaticResponse response) ∨
      (∃ response ∈ staticResponses, ∃ reqdata, requestParser reqres.buffer = .ok reqdata ∧
        (reqdata.uri = .exit ∨ reqdata.uri = .ping) ∧ Answered reqres (controller reqres) response) ∨
      ∃ sender reqdata, controller reqres =
          {reqres with dbData := some reqdata, dbRequestSender := some sender} ∧
        Waiting (controller reqres) := by
  have hmem : ∀ response ∈ [internalerror "93", unprocessable "98", okExit "111", okPing, notfound, badrequest "131"],
      response ∈ staticResponses := by simp [staticResponses]
  unfold controller
  cases hp : requestParser reqres.buffer with
  | error e =>
    cases e with
    | memory => exact .inl ⟨_, hmem _ (by simp), .internalerror "93", rfl⟩
    | invalid => exact .inl ⟨_, hmem _ (by simp), .unprocessable "98", rfl⟩
  | ok d =>
    simp only
    by_cases hexit : d.uri = .exit
    · rw [if_pos hexit]
      exact .inr (.inl ⟨_, hmem (okExit "111") (by simp), d, rfl, .inl hexit, true, rfl⟩)
    rw [if_neg hexit]
    by_cases hping : d.uri = .ping
    · rw [if_pos hping]
      exact .inr (.inl ⟨_, hmem okPing (by simp), d, rfl, .inr hping, .of_static reqres _⟩)
    rw [if_neg hping]
    by_cases hid : 6 ≤ d.id
    · rw [if_pos hid]
      exact .inl ⟨_, hmem _ (by simp), .notfound, rfl⟩
    rw [if_neg hid]
    by_cases hget : d.method = .get ∧ d.uri = .extrato
    · rw [if_neg (not_not_intro (.inl hget)), if_pos hget]
      exact .inr (.inr ⟨_, d, rfl, d, hp, not_le.mp hid, rfl, .inl ⟨hget.1, hget.2, rfl⟩⟩)
    · by_cases hpost : d.method = .post ∧ d.uri = .transacao
      · rw [if_neg (not_not_intro (.inr hpost)), if_neg hget, if_pos hpost]
        exact .inr (.inr ⟨_, d, rfl, d, hp, not_le.mp hid, rfl, .inr ⟨hpost.1, hpost.2, rfl⟩⟩)
      · rw [if_pos (not_or.mpr ⟨hget, hpost⟩)]
        exact .inl ⟨_, hmem _ (by simp), .badrequest "131", rfl⟩

theorem Waiting.wants {reqres : ReqRes κ} (h : Waiting reqres) : WantsDatabase reqres.buffer := by
  obtain ⟨d, hp, hid, _, ⟨hm, hu, _⟩ | ⟨hm, hu, _⟩⟩ := h
  · exact ⟨d, hp, hid, .inl ⟨hm, hu⟩⟩
  · exact ⟨d, hp, hid, .inr ⟨hm, hu⟩⟩

theorem controller_wants {reqres : ReqRes κ} (h : WantsDatabase reqres.buffer) :
    (controller reqres).dbRequestSender ≠ none := by
  obtain ⟨d, hp, hid, ⟨hm, hu⟩ | ⟨hm, hu⟩⟩ := h
  · simp [controller, hp, hm, hu, not_le.mpr hid]
  · simp [controller, hp, hm, hu, not_le.mpr hid]

/-! ### db_request_sender -/

theorem queryOf_extrato {buffer : List UInt8} {d : RequestData} (hp : requestParser buffer = .ok d)
    (hid : d.id < 6) (hm : d.method = .get) (hu : d.uri = .extrato) :
    queryOf buffer = some (.getExtrato d.id) := by
  simp only [queryOf, hp, hm, hu]
  rw [if_neg (not_le.mpr hid)]
  rfl

theorem queryOf_transacao {buffer : List UInt8} {d : RequestData} {t : Transacao}
    (hp : requestParser buffer = .ok d) (hid : d.id < 6) (hm : d.method = .post) (hu : d.uri = .transacao)
    (ht : parseTransacoes buffer d = .ok t) : queryOf buffer = some (.ofTransacao t) := by
  simp [queryOf, hp, hm, hu, ht, hid]

theorem queryOf_invalid {buffer : List UInt8} {d : RequestData} {e : ParserError}
    (hp : requestParser buffer = .ok d) (hm : d.method = .post) (hu : d.uri = .transacao)
    (ht : parseTransacoes buffer d = .error e) : queryOf buffer = none := by
  simp [queryOf, hp, hm, hu, ht]

/-- The function for the reply to a command. -/
def handlerFor : Query → Handler
  | .getExtrato _ => .endExtratoAsync
  | .pushCredito .. => .endTransacaoAsync
  | .pushDebito .. => .endTransacaoAsync

theorem handlerFor_ofTransacao (t : Transacao) : handlerFor (.ofTransacao t) = .endTransacaoAsync := by
  unfold Query.ofTransacao
  split <;> rfl

/-- The connection after a command was sent on it, or refused. -/
def sendOn (o : Sending) (query : Query) (conn : PGconn) : PGconn :=
  if conn.isNone ∧ o.sent then some ⟨o.tag, query, o.results⟩ else conn

theorem startExtratoAsync_eq (o : Sending) {reqres : ReqRes κ} (conn : PGconn) {d : RequestData}
    (hd : reqres.dbData = some d) :
    startExtratoAsync o reqres conn = .ok
      ({reqres with dbData := none, dbResponseHandler := some .endExtratoAsync},
        sendOn o (.getExtrato d.id) conn) := by
  have hret := dbStart_nonneg (.getExtrato d.id) o conn
  have hconn := dbStart_conn (.getExtrato d.id) o conn
  unfold startExtratoAsync dbStartExtrato
  rw [hd]
  simp only [hret, if_false]
  rw [hconn, sendOn]

theorem startTransacaoAsync_invalid (o : Sending) {reqres : ReqRes κ} (conn : PGconn) {d : RequestData}
    {e : ParserError} (hd : reqres.dbData = some d) (ht : parseTransacoes reqres.buffer d = .error e) :
    startTransacaoAsync o reqres conn =
      .ok ({reqres with dbData := none}.setStaticResponse (unprocessable "40"), conn) := by
  obtain rfl := parseTransacoes_error ht
  unfold startTransacaoAsync
  rw [hd]
  simp only [ht]

theorem startTransacaoAsync_eq (o : Sending) {reqres : ReqRes κ} (conn : PGconn) {d : RequestData}
    {t : Transacao} (hd : reqres.dbData = some d) (ht : parseTransacoes reqres.buffer d = .ok t) :
    startTransacaoAsync o reqres conn = .ok
      ({reqres with dbData := none, dbResponseHandler := some .endTransacaoAsync},
        sendOn o (.ofTransacao t) conn) := by
  have hret := dbStart_nonneg (.ofTransacao t) o conn
  have hconn := dbStart_conn (.ofTransacao t) o conn
  unfold startTransacaoAsync dbStartTransacao
  rw [hd]
  simp only [ht, hret, if_false]
  rw [hconn, sendOn]

/-- With a request to read, the function answers it or leaves the one for the reply. -/
theorem sender_answers (sender : Sender) (o : Sending) (reqres : ReqRes κ) (conn : PGconn) :
    (reqres.dbData = none ∧ sender.call o reqres conn = .error .null) ∨
      ∃ reqres' conn', sender.call o reqres conn = .ok (reqres', conn') ∧
        ((∃ response ∈ staticResponses, reqres' = {reqres with dbData := none}.setStaticResponse response) ∨
          ∃ handler, reqres' = {reqres with dbData := none, dbResponseHandler := some handler}) := by
  cases hd : reqres.dbData with
  | none =>
    cases sender with
    | startTransacaoAsync =>
      refine .inl ⟨rfl, ?_⟩
      simp only [Sender.call, startTransacaoAsync, hd]
    | startExtratoAsync =>
      refine .inl ⟨rfl, ?_⟩
      simp only [Sender.call, startExtratoAsync, hd]
  | some d =>
    cases sender with
    | startTransacaoAsync =>
      cases ht : parseTransacoes reqres.buffer d with
      | error e =>
        have hmem : unprocessable "40" ∈ staticResponses := by simp [staticResponses]
        exact .inr ⟨_, _, startTransacaoAsync_invalid o conn hd ht, .inl ⟨_, hmem, rfl⟩⟩
      | ok t => exact .inr ⟨_, _, startTransacaoAsync_eq o conn hd ht, .inr ⟨_, rfl⟩⟩
    | startExtratoAsync => exact .inr ⟨_, _, startExtratoAsync_eq o conn hd, .inr ⟨_, rfl⟩⟩

/-- A waiting request is answered, and the connection left alone, when it asks for
no command; else its command is sent, or refused, and it gets the function for the reply. -/
theorem sender_cases (o : Sending) {reqres : ReqRes κ} (hw : Waiting reqres) (conn : PGconn) :
    ∃ sender, reqres.dbRequestSender = some sender ∧
      ((queryOf reqres.buffer = none ∧ ∃ response, Refusal response ∧
          sender.call o reqres conn =
            .ok ({reqres with dbData := none}.setStaticResponse response, conn)) ∨
        ∃ query, queryOf reqres.buffer = some query ∧
          sender.call o reqres conn =
            .ok ({reqres with dbData := none, dbResponseHandler := some (handlerFor query)},
              sendOn o query conn)) := by
  obtain ⟨d, hp, hid, hd, ⟨hm, hu, hs⟩ | ⟨hm, hu, hs⟩⟩ := hw
  · exact ⟨_, hs, .inr ⟨.getExtrato d.id, queryOf_extrato hp hid hm hu, startExtratoAsync_eq o conn hd⟩⟩
  · refine ⟨_, hs, ?_⟩
    cases ht : parseTransacoes reqres.buffer d with
    | error e =>
      exact .inl ⟨queryOf_invalid hp hm hu ht, _, .unprocessable "40", startTransacaoAsync_invalid o conn hd ht⟩
    | ok t =>
      refine .inr ⟨.ofTransacao t, queryOf_transacao hp hid hm hu ht, ?_⟩
      rw [handlerFor_ofTransacao]
      exact startTransacaoAsync_eq o conn hd ht

/-! ### db_response_handler -/

/-- The reply in a result, as much of it as the buffer for an extrato takes. -/
def replyText (res : PGresult) : List UInt8 := ((cstr (res.value.getD [])).take (2000 - 1))

/-- A slot with a reply in its buffer, as the 200 response has it. -/
def ReqRes.okReply (reqres : ReqRes κ) (text : List UInt8) : ReqRes κ :=
  let response := snprintf maxReqRespSize (okText (text.length + 1) text)
  {reqres with buffer := memcpy reqres.buffer response}

/-- A slot that is answered from a result: with the reply in a 200, or with a failure. -/
inductive Reported (reqres : ReqRes κ) (res : Option PGresult) : ReqRes κ → Prop where
  | failed {response : List UInt8} (h : Refusal response)
      (hstatus : status (reqres.setStaticResponse response).buffer = bytes "500" ∨
        status (reqres.setStaticResponse response).buffer = bytes "422") :
      Reported reqres res (reqres.setStaticResponse response)
  | value {result : PGresult} (h : res = some result) (ok : result.tuplesOk = true)
      (hvalue : result.value.isSome) :
      Reported reqres res (reqres.okReply (replyText result))

theorem reported_failed (reqres : ReqRes κ) (res : Option PGresult) {response : List UInt8}
    (h : Refusal response) (hlen : 12 ≤ response.length)
    (hstatus : (response.drop 9).take 3 = bytes "500" ∨ (response.drop 9).take 3 = bytes "422") :
    Reported reqres res (reqres.setStaticResponse response) := by
  refine .failed h ?_
  rw [ReqRes.setStaticResponse, status_memcpy hlen]
  exact hstatus

/-- A value in an array of zeros is printed whole when the array is longer. -/
theorem printOk_memcpy (reqres : ReqRes κ) (value : List UInt8) (size k : Nat) :
    reqres.printOk ((cstr value).take size).length (memcpy (List.replicate k 0) ((cstr value).take size)) =
      if ((cstr value).take size).length < k then
        .ok (reqres.okReply ((cstr value).take size))
      else .error .overread := by
  have hs : ∀ b ∈ (cstr value).take size, b ≠ 0 := fun b hb => cstr_ne_zero b (List.mem_of_mem_take hb)
  obtain ⟨hmem, hcstr⟩ := memcpy_zeros hs k
  unfold ReqRes.printOk
  by_cases hlt : ((cstr value).take size).length < k
  · rw [if_pos (hmem.mpr hlt), if_pos hlt, hcstr hlt]
    rfl
  · rw [if_neg (fun h => hlt (hmem.mp h)), if_neg hlt]

/-- The array that a handler has the reply copied to. -/
def Handler.room : Handler → Nat
  | endTransacaoAsync => 50
  | endExtratoAsync => 2000

/-- As much of it as it offers. -/
def Handler.size : Handler → Nat
  | endTransacaoAsync => 50
  | endExtratoAsync => 2000 - 1

theorem Handler.room_le (handler : Handler) : handler.room ≤ 2000 := by
  cases handler <;> decide

theorem Handler.le_size {handler : Handler} {n : Nat} (h : n < handler.room) : n ≤ handler.size := by
  cases handler with
  | endTransacaoAsync => exact Nat.le_of_lt h
  | endExtratoAsync => exact Nat.le_of_lt_succ h

/-- What it answers a failure with. -/
def Handler.failing : Handler → List UInt8
  | endTransacaoAsync => internalerror "15"
  | endExtratoAsync => internalerror "66"

/-- What it answers a NULL with, and a wait that fails. -/
def Handler.refusing : Handler → List UInt8
  | endTransacaoAsync => unprocessable "19"
  | endExtratoAsync => internalerror "66"

/-- When the waiting ends, the function for the reply answers with what it reads. -/
theorem handler_reads (handler : Handler) {polls : List Poll} (h : waitDb polls = .ok 0) (reqres : ReqRes κ)
    (conn : PGconn) :
    handler.call polls reqres conn =
      match reading handler.size (pqGetResult conn).1 with
      | .failed => .ok (reqres.setStaticResponse handler.failing, none)
      | .null => .ok (reqres.setStaticResponse handler.refusing, none)
      | .value text => if text.length < handler.room then .ok (reqres.okReply text, none) else .error .overread := by
  cases handler with
  | endTransacaoAsync =>
    simp only [Handler.call, endTransacaoAsync, dbEndTransacao, dbEnd, h, dbGetResultTransacao,
      dbGetResult_reading, clearDbconn_idle, Handler.size, Handler.room]
    cases hread : reading 50 (pqGetResult conn).1 with
    | failed => rfl
    | null => rfl
    | value text =>
      obtain ⟨_, value, _, _, _, _, _, rfl⟩ := reading_value_iff.mp hread
      simp only [Reading.report, Int.reduceLT, if_false]
      rw [if_neg (by unfold transacaoDbError; omega), if_neg (by unfold transacaoInvalid; omega),
        if_neg (by omega), printOk_memcpy]
      exact apply_ite (Except.map _) _ _ _
  | endExtratoAsync =>
    simp only [Handler.call, endExtratoAsync, dbEndExtrato, dbEnd, h, dbGetResultExtrato, dbGetResult_reading,
      clearDbconn_idle, Handler.size, Handler.room]
    cases hread : reading (2000 - 1) (pqGetResult conn).1 with
    | failed => rfl
    | null => rfl
    | value text =>
      obtain ⟨_, value, _, _, _, _, _, rfl⟩ := reading_value_iff.mp hread
      simp only [Reading.report, Int.reduceLT, if_false]
      rw [if_neg (by omega), printOk_memcpy]
      exact apply_ite (Except.map _) _ _ _

/-- A failed wait is answered as a NULL is. -/
theorem handler_waitFails (handler : Handler) {polls : List Poll} (h : waitDb polls = .ok (-1))
    (reqres : ReqRes κ) (conn : PGconn) :
    handler.call polls reqres conn = .ok (reqres.setStaticResponse handler.refusing, conn) := by
  cases handler with
  | endTransacaoAsync =>
    simp only [Handler.call, endTransacaoAsync, dbEndTransacao, dbEnd, h]
    rfl
  | endExtratoAsync =>
    simp only [Handler.call, endExtratoAsync, dbEndExtrato, dbEnd, h]
    rfl

theorem handler_waitError (handler : Handler) {polls : List Poll} {f : Fault} (h : waitDb polls = .error f)
    (reqres : ReqRes κ) (conn : PGconn) : handler.call polls reqres conn = .error f := by
  cases handler with
  | endTransacaoAsync => simp only [Handler.call, endTransacaoAsync, dbEndTransacao, dbEnd, h]
  | endExtratoAsync => simp only [Handler.call, endExtratoAsync, dbEndExtrato, dbEnd, h]

theorem Handler.failing_mem (handler : Handler) : handler.failing ∈ staticResponses := by
  cases handler <;> simp [staticResponses, Handler.failing]

theorem Handler.refusing_mem (handler : Handler) : handler.refusing ∈ staticResponses := by
  cases handler <;> simp [staticResponses, Handler.refusing]

theorem Handler.reported_refusing (handler : Handler) (reqres : ReqRes κ) (res : Option PGresult) :
    Reported reqres res (reqres.setStaticResponse handler.refusing) := by
  cases handler with
  | endTransacaoAsync =>
    exact reported_failed reqres res (.unprocessable "19") (by decide +kernel) (.inr (by decide +kernel))
  | endExtratoAsync =>
    exact reported_failed reqres res (.internalerror "66") (by decide +kernel) (.inl (by decide +kernel))

theorem Handler.reported_failing (handler : Handler) (reqres : ReqRes κ) (res : Option PGresult) :
    Reported reqres res (reqres.setStaticResponse handler.failing) := by
  cases handler with
  | endTransacaoAsync =>
    exact reported_failed reqres res (.internalerror "15") (by decide +kernel) (.inl (by decide +kernel))
  | endExtratoAsync =>
    exact reported_failed reqres res (.internalerror "66") (by decide +kernel) (.inl (by decide +kernel))

/-- What is printed around a reply: the head of a 200, and no NUL. -/
theorem okHead_text : okHead.length = 78 ∧ (okHead.drop 9).take 3 = bytes "200" ∧
    ∀ b ∈ okHead ++ (bytes "\r\n\r\n" ++ bytes "\n"), b ≠ 0 := by
  decide +kernel

/-- A reply is text behind the status line of a 200. -/
theorem okReply_status (reqres : ReqRes κ) (text : List UInt8) :
    status (reqres.okReply text).buffer = bytes "200" := by
  obtain ⟨hlength, hhead, _⟩ := okHead_text
  have hlen : okHead.length ≤ maxReqRespSize - 1 := hlength.trans_le (by decide)
  unfold ReqRes.okReply okText snprintf
  rw [List.append_assoc, List.append_assoc, List.append_assoc, List.take_append,
    List.take_of_length_le hlen, List.append_assoc, status_memcpy (by omega), hhead]

theorem Reported.status_cases {reqres reqres' : ReqRes κ} {res : Option PGresult}
    (h : Reported reqres res reqres') :
    status reqres'.buffer = bytes "500" ∨ status reqres'.buffer = bytes "422" ∨
      status reqres'.buffer = bytes "200" := by
  cases h with
  | failed _ hstatus => exact hstatus.elim .inl fun h => .inr (.inl h)
  | value => exact .inr (.inr (okReply_status reqres _))

/-- When the waiting ends, the reply is read and answered with, as long as a reply
to a transaction is shorter than the array it is copied to. -/
theorem handler_ok (handler : Handler) {polls : List Poll} (reqres : ReqRes κ) {conn : PGconn}
    (hwait : waitDb polls = .ok 0)
    (hshort : ∀ res value, (pqGetResult conn).1 = some res → res.value = some value →
      handler = .endTransacaoAsync → (cstr value).length < 50) :
    ∃ reqres', handler.call polls reqres conn = .ok (reqres', none) := by
  rw [handler_reads handler hwait]
  cases hread : reading handler.size (pqGetResult conn).1 with
  | failed => exact ⟨_, rfl⟩
  | null => exact ⟨_, rfl⟩
  | value text =>
    obtain ⟨res, value, hres, _, _, _, hvalue, rfl⟩ := reading_value_iff.mp hread
    have hlt : ((cstr value).take handler.size).length < handler.room := by
      rw [List.length_take]
      cases handler with
      | endTransacaoAsync => exact lt_of_le_of_lt (Nat.min_le_right ..) (hshort res value hres hvalue rfl)
      | endExtratoAsync => exact lt_of_le_of_lt (Nat.min_le_left ..) (by decide)
    exact ⟨_, if_pos hlt⟩

/-- The function for the reply waits in vain and leaves the connection, or answers
from the next result and leaves the connection idle. -/
theorem handler_cases {handler : Handler} {polls : List Poll} {reqres reqres' : ReqRes κ}
    {conn conn' : PGconn} (h : handler.call polls reqres conn = .ok (reqres', conn')) :
    (waitDb polls = .ok (-1) ∧ conn' = conn ∧ Reported reqres none reqres') ∨
      (waitDb polls = .ok 0 ∧ conn' = none ∧ Reported reqres (pqGetResult conn).1 reqres') := by
  cases hwait : waitDb polls with
  | error f =>
    rw [handler_waitError handler hwait] at h
    cases h
  | ok ret =>
    rcases waitDb_cases hwait with rfl | rfl
    · rw [handler_waitFails handler hwait] at h
      cases h
      exact .inl ⟨rfl, rfl, handler.reported_refusing reqres none⟩
    rw [handler_reads handler hwait] at h
    cases hread : reading handler.size (pqGetResult conn).1 with
    | failed =>
      rw [hread] at h
      cases h
      exact .inr ⟨rfl, rfl, handler.reported_failing reqres _⟩
    | null =>
      rw [hread] at h
      cases h
      exact .inr ⟨rfl, rfl, handler.reported_refusing reqres _⟩
    | value text =>
      obtain ⟨res, value, hres, hok, _, _, hvalue, rfl⟩ := reading_value_iff.mp hread
      simp only [hread] at h
      split at h
      · rename_i hlt
        cases h
        have htext : (cstr value).take handler.size = replyText res := by
          rw [replyText, hvalue, Option.getD_some]
          cases handler with
          | endTransacaoAsync =>
            have hshort : ((cstr value).take 50).length < 50 := hlt
            rw [List.length_take] at hshort
            show (cstr value).take 50 = _
            rw [List.take_of_length_le (by omega), List.take_of_length_le (by omega)]
          | endExtratoAsync => rfl
        rw [htext]
        exact .inr ⟨rfl, rfl, .value hres hok (by rw [hvalue]; rfl)⟩
      · cases h

end Rinha.Server
