import Rinha.Server.NotFound
import Rinha.Server.Wire

/-! What comes of a request: the command that is sent for it, and the response.

`controller` answers a request or sends it on an errand to the database; a transaction
that is not valid is answered there. Whatever the database does, both depend on the
buffer only by this plan, and two plans can be told apart (`sameOutcome_iff`). -/
namespace Rinha.Server
open Library Request Client

/-- What `controller` makes of a request. -/
inductive Errand where
  | answer (response : List UInt8)
  | extrato (id : Nat)
  | transacao (reqdata : RequestData)
  deriving DecidableEq

def errandOf (buffer : List UInt8) : Errand :=
  match requestParser buffer with
  | .error _ => .answer (unprocessable "98")
  | .ok reqdata =>
    if reqdata.uri = .exit then .answer (okExit "111")
    else if reqdata.uri = .ping then .answer okPing
    else if 6 ≤ reqdata.id then .answer notfound
    else if reqdata.method = .get ∧ reqdata.uri = .extrato then .extrato reqdata.id
    else if reqdata.method = .post ∧ reqdata.uri = .transacao then .transacao reqdata
    else .answer (badrequest "131")

/-- The response that is given without the database, or the query that is sent. -/
inductive Plan where
  | static (response : List UInt8)
  | query (query : Query)
  deriving DecidableEq

def planOf (buffer : List UInt8) : Plan :=
  match errandOf buffer with
  | .answer response => .static response
  | .extrato id => .query (.getExtrato id)
  | .transacao reqdata =>
    match parseTransacoes buffer reqdata with
    | .error _ => .static (unprocessable "40")
    | .ok transacao => .query (.ofTransacao transacao)

/-- The command on the connection, which was idle, behind `db_request_sender`. -/
def commandOf (o : Sending) (buffer : List UInt8) : PGconn :=
  let reqres := controller (slotWith buffer)
  match reqres.dbRequestSender with
  | none => none
  | some sender =>
    match sender.call o reqres none with
    | .error _ => none
    | .ok (_, conn) => conn

/-- The response that is written in the end. -/
def answerOf (o : Sending) (polls : List Poll) (buffer : List UInt8) : Except Fault (List UInt8) :=
  (exchange o polls buffer).map fun reqres => responseText reqres.buffer

/-- Whatever the database does, the same command is sent for both and the same response
is written. -/
def SameOutcome (buffer buffer' : List UInt8) : Prop :=
  ∀ o polls, commandOf o buffer = commandOf o buffer' ∧ answerOf o polls buffer = answerOf o polls buffer'

/-! ### The text of a response -/

section Text
variable {κ κ' : Type*}

theorem responseText_memcpy {s : List UInt8} (h : s.length < maxReqRespSize) (dst : List UInt8) :
    responseText (memcpy dst (s ++ [0])) = cstr s := by
  obtain ⟨k, hk⟩ : ∃ k, maxReqRespSize - s.length = k + 1 := ⟨maxReqRespSize - s.length - 1, by omega⟩
  unfold responseText memcpy
  rw [List.append_assoc, List.take_append, List.take_of_length_le h.le, hk, List.singleton_append, List.take_succ_cons,
    cstr_append_nul]

theorem responseText_static {response : List UInt8} (h : response.length < maxReqRespSize) (reqres : ReqRes κ) :
    responseText (reqres.setStaticResponse response).buffer = cstr response := responseText_memcpy h _

/-- What a slot is answered with does not depend on what was in its buffer. -/
theorem printOk_text (reqres : ReqRes κ) (reqres' : ReqRes κ') (n : Int) (db_buffer : List UInt8) :
    (reqres.printOk n db_buffer).map (fun r => responseText r.buffer) =
      (reqres'.printOk n db_buffer).map (fun r => responseText r.buffer) := by
  have hlen : ∀ text : List UInt8, (text.take (maxReqRespSize - 1)).length < maxReqRespSize := by
    intro text
    have : 0 < maxReqRespSize := by decide
    have := List.length_take_le (maxReqRespSize - 1) text
    omega
  unfold ReqRes.printOk
  split
  · show Except.ok _ = Except.ok _
    simp only [snprintf, responseText_memcpy (hlen _)]
  · rfl

theorem handler_text (handler : Handler) (polls : List Poll) (reqres : ReqRes κ) (reqres' : ReqRes κ')
    (conn : PGconn) :
    (handler.call polls reqres conn).map (fun p => responseText p.1.buffer) =
      (handler.call polls reqres' conn).map (fun p => responseText p.1.buffer) := by
  have hstatic : ∀ response ∈ staticResponses, ∀ conn : PGconn,
      (Except.ok (reqres.setStaticResponse response, conn) : Except Fault (ReqRes κ × PGconn)).map
          (fun p => responseText p.1.buffer) =
        (Except.ok (reqres'.setStaticResponse response, conn) : Except Fault (ReqRes κ' × PGconn)).map
          (fun p => responseText p.1.buffer) := by
    intro response hmem conn
    have hlen := (staticResponses_text response hmem).1
    simp only [Except.map, responseText_static (hlen.trans (by decide : 1000 < maxReqRespSize))]
  have hprint : ∀ n db_buffer (conn : PGconn),
      ((reqres.printOk n db_buffer).map fun r => (r, conn)).map (fun p => responseText p.1.buffer) =
        ((reqres'.printOk n db_buffer).map fun r => (r, conn)).map (fun p => responseText p.1.buffer) := by
    intro n db_buffer conn
    have := printOk_text reqres reqres' n db_buffer
    revert this
    cases reqres.printOk n db_buffer <;> cases reqres'.printOk n db_buffer <;> exact id
  cases handler with
  | endTransacaoAsync =>
    show (endTransacaoAsync polls reqres conn).map _ = (endTransacaoAsync polls reqres' conn).map _
    unfold endTransacaoAsync
    cases dbEndTransacao polls 50 (List.replicate 50 0) conn with
    | error f => rfl
    | ok out =>
      simp only
      split
      · exact hstatic _ (by simp [staticResponses]) _
      · split
        · exact hstatic _ (by simp [staticResponses]) _
        · split
          · exact hstatic _ (by simp [staticResponses]) _
          · exact hprint _ _ _
  | endExtratoAsync =>
    show (endExtratoAsync polls reqres conn).map _ = (endExtratoAsync polls reqres' conn).map _
    unfold endExtratoAsync
    cases dbEndExtrato polls (2000 - 1) (List.replicate 2000 0) conn with
    | error f => rfl
    | ok out =>
      simp only
      split
      · exact hstatic _ (by simp [staticResponses]) _
      · exact hprint _ _ _

end Text

/-! ### What controller makes of a request -/

/-- The answers that are given without a parsed body. -/
def answers : List (List UInt8) :=
  [unprocessable "98", okExit "111", okPing, notfound, badrequest "131"]

theorem errand_cases (buffer : List UInt8) :
    (∃ response ∈ answers, errandOf buffer = .answer response ∧
        Answered (slotWith buffer) (controller (slotWith buffer)) response) ∨
      ∃ d, requestParser buffer = .ok d ∧ d.id < 6 ∧
        ((d.method = .get ∧ d.uri = .extrato ∧ errandOf buffer = .extrato d.id ∧ controller (slotWith buffer) =
            {slotWith buffer with dbData := some d, dbRequestSender := some .startExtratoAsync}) ∨
          (d.method = .post ∧ d.uri = .transacao ∧ errandOf buffer = .transacao d ∧ controller (slotWith buffer) =
            {slotWith buffer with dbData := some d, dbRequestSender := some .startTransacaoAsync})) := by
  have hbuffer : (slotWith buffer).buffer = buffer := rfl
  have hmem : ∀ k (hk : k < answers.length), answers[k] ∈ answers := fun k hk => List.getElem_mem hk
  unfold errandOf controller
  rw [hbuffer]
  cases hp : requestParser buffer with
  | error e =>
    obtain rfl := requestParser_error hp
    exact .inl ⟨_, hmem 0 (by decide), rfl, .of_static _ _⟩
  | ok d =>
    simp only
    by_cases hexit : d.uri = .exit
    · rw [if_pos hexit, if_pos hexit]
      exact .inl ⟨_, hmem 1 (by decide), rfl, true, rfl⟩
    rw [if_neg hexit, if_neg hexit]
    by_cases hping : d.uri = .ping
    · rw [if_pos hping, if_pos hping]
      exact .inl ⟨_, hmem 2 (by decide), rfl, .of_static _ _⟩
    rw [if_neg hping, if_neg hping]
    by_cases hid : 6 ≤ d.id
    · rw [if_pos hid, if_pos hid]
      exact .inl ⟨_, hmem 3 (by decide), rfl, .of_static _ _⟩
    rw [if_neg hid, if_neg hid]
    by_cases hget : d.method = .get ∧ d.uri = .extrato
    · rw [if_pos hget, if_neg (not_not_intro (.inl hget)), if_pos hget]
      exact .inr ⟨d, rfl, not_le.mp hid, .inl ⟨hget.1, hget.2, rfl, rfl⟩⟩
    rw [if_neg hget]
    by_cases hpost : d.method = .post ∧ d.uri = .transacao
    · rw [if_pos hpost, if_neg (not_not_intro (.inr hpost)), if_neg hget, if_pos hpost]
      exact .inr ⟨d, rfl, not_le.mp hid, .inr ⟨hpost.1, hpost.2, rfl, rfl⟩⟩
    · rw [if_neg hpost, if_pos (not_or.mpr ⟨hget, hpost⟩)]
      exact .inl ⟨_, hmem 4 (by decide), rfl, .of_static _ _⟩

/-- They are whole texts. -/
theorem answers_text : ∀ response ∈ answers, response.length < maxReqRespSize ∧ cstr response = response := by
  decide +kernel

theorem errandOf_refused {buffer : List UInt8} :
    errandOf buffer = .answer (unprocessable "98") ↔ requestParser buffer = .error .invalid := by
  have hdistinct : okExit "111" ≠ unprocessable "98" ∧ okPing ≠ unprocessable "98" ∧
      notfound ≠ unprocessable "98" ∧ badrequest "131" ≠ unprocessable "98" := by decide +kernel
  unfold errandOf
  cases hp : requestParser buffer with
  | error e =>
    obtain rfl := requestParser_error hp
    exact iff_of_true rfl rfl
  | ok d =>
    refine iff_of_false (fun h => ?_) (fun h => by cases h)
    simp only at h
    split at h
    · exact hdistinct.1 (Errand.answer.inj h)
    split at h
    · exact hdistinct.2.1 (Errand.answer.inj h)
    split at h
    · exact hdistinct.2.2.1 (Errand.answer.inj h)
    split at h
    · cases h
    split at h
    · cases h
    · exact hdistinct.2.2.2 (Errand.answer.inj h)

theorem errandOf_transacao {buffer : List UInt8} {d : RequestData} (h : errandOf buffer = .transacao d) :
    requestParser buffer = .ok d ∧ d.method = .post ∧ d.uri = .transacao := by
  rcases errand_cases buffer with ⟨response', hmem, herrand, _⟩ |
    ⟨d', hp, _, ⟨_, _, herrand, _⟩ | ⟨hm, hu, herrand, _⟩⟩
  · rw [herrand] at h
    cases h
  · rw [herrand] at h
    cases h
  · rw [herrand] at h
    cases h
    exact ⟨hp, hm, hu⟩

theorem planOf_answer {buffer response : List UInt8} (h : errandOf buffer = .answer response) :
    planOf buffer = .static response := by
  unfold planOf
  rw [h]

theorem planOf_extrato {buffer : List UInt8} {id : Nat} (h : errandOf buffer = .extrato id) :
    planOf buffer = .query (.getExtrato id) := by
  unfold planOf
  rw [h]

theorem planOf_transacao {buffer : List UInt8} {d : RequestData} {t : Transacao}
    (h : errandOf buffer = .transacao d) (ht : parseTransacoes buffer d = .ok t) :
    planOf buffer = .query (.ofTransacao t) := by
  unfold planOf
  rw [h]
  simp only [ht]

theorem planOf_invalid {buffer : List UInt8} {d : RequestData} {e : ParserError}
    (h : errandOf buffer = .transacao d) (ht : parseTransacoes buffer d = .error e) :
    planOf buffer = .static (unprocessable "40") := by
  unfold planOf
  rw [h]
  simp only [ht]

/-- A plan is a query, or the answer of the errand, or that for a body that is not valid. -/
theorem planOf_static {buffer response : List UInt8} (h : planOf buffer = .static response) :
    errandOf buffer = .answer response ∨
      response = unprocessable "40" ∧ ∃ d, errandOf buffer = .transacao d ∧
        parseTransacoes buffer d = .error .invalid := by
  cases herrand : errandOf buffer with
  | answer response' =>
    rw [planOf_answer herrand] at h
    cases h
    exact .inl rfl
  | extrato id =>
    rw [planOf_extrato herrand] at h
    cases h
  | transacao d =>
    cases ht : parseTransacoes buffer d with
    | ok t =>
      rw [planOf_transacao herrand ht] at h
      cases h
    | error e =>
      obtain rfl := parseTransacoes_error ht
      rw [planOf_invalid herrand ht] at h
      cases h
      exact .inr ⟨rfl, d, rfl, ht⟩

/-! ### What comes of a plan -/

theorem outcome_static {buffer response : List UInt8} (h : planOf buffer = .static response) (o : Sending)
    (polls : List Poll) : commandOf o buffer = none ∧ answerOf o polls buffer = .ok response := by
  unfold planOf at h
  rcases errand_cases buffer with ⟨response', hmem, herrand, toExit, hcontroller⟩ |
    ⟨d, hp, hid, ⟨hm, hu, herrand, hcontroller⟩ | ⟨hm, hu, herrand, hcontroller⟩⟩
  · rw [herrand] at h
    cases h
    obtain ⟨hlen, hcstr⟩ := answers_text response hmem
    have hsender : (controller (slotWith buffer)).dbRequestSender = none := by
      rw [hcontroller]
      rfl
    refine ⟨by simp only [commandOf, hsender], ?_⟩
    unfold answerOf exchange
    simp only [hsender, Except.map]
    rw [hcontroller]
    exact congrArg Except.ok ((responseText_static hlen _).trans hcstr)
  · rw [herrand] at h
    cases h
  · rw [herrand] at h
    simp only at h
    cases ht : parseTransacoes buffer d with
    | ok t =>
      rw [ht] at h
      cases h
    | error e =>
      rw [ht] at h
      cases h
      have hdata : (controller (slotWith buffer)).dbData = some d := by rw [hcontroller]
      have hbuffer : (controller (slotWith buffer)).buffer = buffer := by
        rw [hcontroller]
        rfl
      have hsender : (controller (slotWith buffer)).dbRequestSender = some .startTransacaoAsync := by
        rw [hcontroller]
      have hhandler : (controller (slotWith buffer)).dbResponseHandler = none := by
        rw [hcontroller]
        rfl
      have hcall : (Sender.startTransacaoAsync).call o (controller (slotWith buffer)) none = _ :=
        startTransacaoAsync_invalid o none hdata (by rw [hbuffer]; exact ht)
      refine ⟨by simp only [commandOf, hsender, hcall], ?_⟩
      unfold answerOf exchange
      simp only [hsender, hcall, ReqRes.setStaticResponse, hhandler, Except.map]
      exact congrArg Except.ok ((responseText_memcpy (by decide +kernel) _).trans (by decide +kernel))

/-- A request that sends a query is answered with what the handler makes of the reply. -/
theorem outcome_sent {buffer : List UInt8} {query : Query} {sender : Sender} {reqres : ReqRes Unit} {o : Sending}
    (hsender : (controller (slotWith buffer)).dbRequestSender = some sender)
    (hcall : sender.call o (controller (slotWith buffer)) none = .ok (reqres, sendOn o query none))
    (hhandler : reqres.dbResponseHandler = some (handlerFor query)) (polls : List Poll) :
    commandOf o buffer = sendOn o query none ∧ answerOf o polls buffer =
      ((handlerFor query).call polls (slotWith []) (sendOn o query none)).map
        fun p => responseText p.1.buffer := by
  refine ⟨by simp only [commandOf, hsender, hcall], ?_⟩
  unfold answerOf exchange
  simp only [hsender, hcall, hhandler]
  rw [← handler_text (handlerFor query) polls reqres]
  cases (handlerFor query).call polls reqres (sendOn o query none) <;> rfl

theorem outcome_query {buffer : List UInt8} {query : Query} (h : planOf buffer = .query query) (o : Sending)
    (polls : List Poll) : commandOf o buffer = sendOn o query none ∧ answerOf o polls buffer =
      ((handlerFor query).call polls (slotWith []) (sendOn o query none)).map
        fun p => responseText p.1.buffer := by
  unfold planOf at h
  rcases errand_cases buffer with ⟨response', _, herrand, _⟩ |
    ⟨d, hp, hid, ⟨hm, hu, herrand, hcontroller⟩ | ⟨hm, hu, herrand, hcontroller⟩⟩
  · rw [herrand] at h
    cases h
  · rw [herrand] at h
    cases h
    have hdata : (controller (slotWith buffer)).dbData = some d := by rw [hcontroller]
    exact @outcome_sent _ _ .startExtratoAsync _ _ (by rw [hcontroller]) (startExtratoAsync_eq o none hdata) rfl polls
  · rw [herrand] at h
    simp only at h
    cases ht : parseTransacoes buffer d with
    | error e =>
      rw [ht] at h
      cases h
    | ok t =>
      rw [ht] at h
      cases h
      have hdata : (controller (slotWith buffer)).dbData = some d := by rw [hcontroller]
      have hbuffer : (controller (slotWith buffer)).buffer = buffer := by
        rw [hcontroller]
        rfl
      refine @outcome_sent _ _ .startTransacaoAsync _ _ (by rw [hcontroller])
        (startTransacaoAsync_eq o none hdata (by rw [hbuffer]; exact ht)) ?_ polls
      rw [handlerFor_ofTransacao]

/-- A database that takes every command, and gives no result. -/
def taking : Sending := ⟨0, true, []⟩

/-- The outcomes are the same exactly when the plans are. -/
theorem sameOutcome_iff {buffer buffer' : List UInt8} :
    SameOutcome buffer buffer' ↔ planOf buffer = planOf buffer' := by
  constructor
  · intro h
    obtain ⟨hcommand, hanswer⟩ := h taking []
    cases hplan : planOf buffer with
    | static response =>
      obtain ⟨hnone, htext⟩ := outcome_static hplan taking []
      cases hplan' : planOf buffer' with
      | static response' =>
        obtain ⟨_, htext'⟩ := outcome_static hplan' taking []
        rw [htext, htext'] at hanswer
        cases hanswer
        rfl
      | query query =>
        rw [hnone, (outcome_query hplan' taking []).1] at hcommand
        cases hcommand
    | query query =>
      obtain ⟨hsent, _⟩ := outcome_query hplan taking []
      cases hplan' : planOf buffer' with
      | static response' =>
        rw [hsent, (outcome_static hplan' taking []).1] at hcommand
        cases hcommand
      | query query' =>
        rw [hsent, (outcome_query hplan' taking []).1] at hcommand
        cases hcommand
        rfl
  · intro h o polls
    cases hplan : planOf buffer with
    | static response =>
      obtain ⟨hnone, htext⟩ := outcome_static hplan o polls
      obtain ⟨hnone', htext'⟩ := outcome_static (h.symm.trans hplan) o polls
      exact ⟨hnone.trans hnone'.symm, htext.trans htext'.symm⟩
    | query query =>
      obtain ⟨hsent, htext⟩ := outcome_query hplan o polls
      obtain ⟨hsent', htext'⟩ := outcome_query (h.symm.trans hplan) o polls
      exact ⟨hsent.trans hsent'.symm, htext.trans htext'.symm⟩

end Rinha.Server
