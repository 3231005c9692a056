import Rinha.Database.Commands
import Rinha.Server.ControllerProofs
import Rinha.Server.Routes

/-! When a request is answered 404.

`controller` answers 404 to an id from 6 on, and nothing that answers from the
database does. The clients are 1 to 5, so a 404 is right for every id but 0,
which no client has and which goes to the database. -/
namespace Rinha.Server
open Library Request Client Database

/-- A connection's slot with what was read into it. -/
def slotWith (buffer : List UInt8) : ReqRes Unit := {ReqRes.zero with buffer := buffer}

/-- One request from its buffer to its response: what `server_loop` does with a slot
that gets an idle connection to itself. -/
def exchange (o : Sending) (polls : List Poll) (buffer : List UInt8) : Except Fault (ReqRes Unit) :=
  let reqres := controller (slotWith buffer)
  match reqres.dbRequestSender with
  | none => .ok reqres
  | some sender =>
    match sender.call o reqres none with
    | .error f => .error f
    | .ok (reqres, conn) =>
      match reqres.dbResponseHandler with
      | none => .ok reqres
      | some handler => (handler.call polls reqres conn).map Prod.fst

/-- The request is for an extrato, or for a transaction with a valid body. -/
def WellRouted (buffer : List UInt8) (reqdata : RequestData) : Prop :=
  (reqdata.method = .get ∧ reqdata.uri = .extrato) ∨
    (reqdata.method = .post ∧ reqdata.uri = .transacao ∧ ∃ t, parseTransacoes buffer reqdata = .ok t)

section Healthy
variable {σ : Type*} (decode : List UInt8 → Option (List Char)) (extratoJson : Extrato → List UInt8)

/-- The command is sent, the waiting ends, and the one result is the database's answer. -/
structure Healthy (db : Db σ) (buffer : List UInt8) (o : Sending) (polls : List Poll) : Prop where
  sent : o.sent = true
  ends : waitDb polls = .ok 0
  answer : ∀ query, queryOf buffer = some query →
    ∃ res, o.results = [res] ∧ Answers decode extratoJson db query res

variable {decode extratoJson}

theorem controller_notfound {buffer : List UInt8} {d : RequestData} (hp : requestParser buffer = .ok d)
    (hw : WellRouted buffer d) (hid : 6 ≤ d.id) (reqres : ReqRes Unit) (hb : reqres.buffer = buffer) :
    controller reqres = reqres.setStaticResponse notfound := by
  unfold controller
  rw [hb, hp]
  rcases hw with ⟨_, hu⟩ | ⟨_, hu, _⟩
  · simp only [hu, reduceCtorEq, if_false, if_pos hid]
  · simp only [hu, reduceCtorEq, if_false, if_pos hid]

theorem controller_waiting {buffer : List UInt8} {d : RequestData} (hp : requestParser buffer = .ok d)
    (hw : WellRouted buffer d) (hid : d.id < 6) (reqres : ReqRes Unit) (hb : reqres.buffer = buffer) :
    ∃ sender, controller reqres = {reqres with dbData := some d, dbRequestSender := some sender} ∧
      Waiting (controller reqres) := by
  subst hb
  unfold controller
  rw [hp]
  rcases hw with ⟨hm, hu⟩ | ⟨hm, hu, _⟩
  · simp only [hm, hu, reduceCtorEq, and_self, or_false, not_true_eq_false, if_false, if_true,
      if_neg (not_le.mpr hid)]
    exact ⟨_, rfl, d, hp, hid, rfl, .inl ⟨hm, hu, rfl⟩⟩
  · simp only [hm, hu, reduceCtorEq, and_self, or_true, not_true_eq_false, if_false, if_true,
      if_neg (not_le.mpr hid)]
    exact ⟨_, rfl, d, hp, hid, rfl, .inr ⟨hm, hu, rfl⟩⟩

theorem queryOf_isSome {buffer : List UInt8} {d : RequestData} (hp : requestParser buffer = .ok d)
    (hw : WellRouted buffer d) (hid : d.id < 6) : queryOf buffer ≠ none := by
  rcases hw with ⟨hm, hu⟩ | ⟨hm, hu, t, ht⟩
  · rw [queryOf_extrato hp hid hm hu]
    exact Option.some_ne_none _
  · rw [queryOf_transacao hp hid hm hu ht]
    exact Option.some_ne_none _

/-- A reply to a transaction is short. -/
theorem answers_short {db : Db σ} {query : Query} {res : PGresult} {value : List UInt8}
    (h : Answers decode extratoJson db query res) (hq : handlerFor query = .endTransacaoAsync)
    (hvalue : res.value = some value) : (cstr value).length < 50 := by
  have hpush : ∀ f id valor descricao c, castPush decode f id valor descricao = .ok c →
      ∃ a, c = .push f a := by
    intro f id valor descricao c hc
    unfold castPush at hc
    split at hc
    · cases hc
    split at hc
    · cases hc
    split at hc
    · cases hc
    cases hc
    exact ⟨_, rfl⟩
  unfold Answers at h
  split at h
  · rw [h] at hvalue
    cases hvalue
  · obtain ⟨_, reply, _, _, rfl⟩ := h
    cases reply with
    | json limite saldo =>
      cases hvalue
      exact lt_of_le_of_lt (List.takeWhile_prefix _).length_le (rowJson_length limite saldo)
    | null => cases hvalue
    | raised e => cases hvalue
  · rename_i id hcall
    cases query with
    | getExtrato id => cases hq
    | pushCredito id valor descricao =>
      obtain ⟨_, hc⟩ := hpush _ _ _ _ _ hcall
      cases hc
    | pushDebito id valor descricao =>
      obtain ⟨_, hc⟩ := hpush _ _ _ _ _ hcall
      cases hc

/-- A request that goes to the database is answered from there, and never with 404. -/
theorem exchange_database {db : Db σ} {buffer : List UInt8} {d : RequestData} {o : Sending}
    {polls : List Poll} (hp : requestParser buffer = .ok d) (hw : WellRouted buffer d) (hid : d.id < 6)
    (hh : Healthy decode extratoJson db buffer o polls) :
    ∃ reqres, exchange o polls buffer = .ok reqres ∧ status reqres.buffer ≠ bytes "404" := by
  obtain ⟨sender, hc, hwaiting⟩ :=
    controller_waiting hp hw hid (slotWith buffer) rfl
  obtain ⟨sender', hsender, hcases⟩ := sender_cases o hwaiting none
  have hbuffer : (controller (slotWith buffer)).buffer = buffer := by
    rw [hc]
    rfl
  rcases hcases with ⟨hnone, _⟩ | ⟨query, hquery, hcall⟩
  · rw [hbuffer] at hnone
    exact absurd hnone (queryOf_isSome hp hw hid)
  rw [hbuffer] at hquery
  obtain ⟨res, hresults, hanswer⟩ := hh.answer query hquery
  have hsent : sendOn o query none = some ⟨o.tag, query, [res]⟩ := by
    rw [sendOn, if_pos ⟨rfl, hh.sent⟩, hresults]
  rw [hsent] at hcall
  have hshort : ∀ r value, (pqGetResult (some ⟨o.tag, query, [res]⟩)).1 = some r → r.value = some value →
      handlerFor query = .endTransacaoAsync → (cstr value).length < 50 := by
    intro r value hr hvalue hq
    cases hr
    exact answers_short hanswer hq hvalue
  obtain ⟨reqres', hend⟩ := handler_ok (handlerFor query)
    {controller (slotWith buffer) with
      dbData := none, dbResponseHandler := some (handlerFor query)} hh.ends hshort
  refine ⟨reqres', ?_, ?_⟩
  · simp only [exchange, hsender]
    rw [hcall]
    exact congrArg (Except.map Prod.fst) hend
  · intro h404
    have hstatus : ∀ s, s = bytes "500" ∨ s = bytes "422" ∨ s = bytes "200" → s ≠ bytes "404" := by
      rintro s (rfl | rfl | rfl) <;> decide
    rcases handler_cases hend with ⟨_, _, hr⟩ | ⟨_, _, hr⟩
    · exact hstatus _ hr.status_cases h404
    · exact hstatus _ hr.status_cases h404

/-- In every state of the database, a well-routed request on a healthy connection
is answered 404 exactly when there is no client with its id, if its id is not 0;
client 0 does not exist and is not answered 404. -/
theorem not_found_iff [DecidableEq σ] {acts : List (Act σ)} {db : Db σ} (hrun : run Db.step Db.seeded acts = .ok db)
    {buffer : List UInt8} {d : RequestData} {o : Sending} {polls : List Poll}
    (hp : requestParser buffer = .ok d) (hw : WellRouted buffer d)
    (hh : Healthy decode extratoJson db buffer o polls) :
    ∃ reqres, exchange o polls buffer = .ok reqres ∧
      ((status reqres.buffer = bytes "404" ↔ ¬ db.tables.HasCliente d.id) ↔ d.id ≠ 0) := by
  have hclient : db.tables.HasCliente d.id ↔ 1 ≤ d.id ∧ d.id ≤ 5 := by
    refine hasCliente_iff (throughout_iff_run.mp (ids_run acts) acts.length db ?_) d.id
    rw [List.take_length]
    exact hrun
  rw [hclient]
  by_cases hid : 6 ≤ d.id
  · refine ⟨(slotWith buffer).setStaticResponse notfound, ?_, ?_⟩
    · unfold exchange
      rw [controller_notfound hp hw hid (slotWith buffer) rfl]
      rfl
    · have h404 : status ((slotWith buffer).setStaticResponse notfound).buffer = bytes "404" := by
        rw [ReqRes.setStaticResponse, status_memcpy (by decide +kernel)]
        decide +kernel
      simp only [h404, true_iff]
      omega
  · obtain ⟨reqres, hex, h404⟩ := exchange_database hp hw (not_le.mp hid) hh
    refine ⟨reqres, hex, ?_⟩
    simp only [h404, false_iff, not_not]
    omega

end Healthy

/-- The slot of a transaction whose command was sent. -/
def sentTransacao (buffer : List UInt8) : ReqRes Unit :=
  {slotWith buffer with
    dbRequestSender := some .startTransacaoAsync
    dbResponseHandler := some .endTransacaoAsync}

/-- A valid transaction is answered from what its command is replied to. -/
theorem exchange_transacao {buffer : List UInt8} {d : RequestData} {t : Request.Transacao}
    (hp : requestParser buffer = .ok d) (hid : d.id < 6) (hm : d.method = .post) (hu : d.uri = .transacao)
    (ht : parseTransacoes buffer d = .ok t) (o : Sending) (polls : List Poll) :
    exchange o polls buffer =
      (endTransacaoAsync polls (sentTransacao buffer) (sendOn o (.ofTransacao t) none)).map Prod.fst := by
  have hcontroller : controller (slotWith buffer) =
      {slotWith buffer with dbData := some d, dbRequestSender := some .startTransacaoAsync} := by
    have hslot : requestParser (slotWith buffer).buffer = .ok d := hp
    unfold controller
    rw [hslot]
    simp [hm, hu, not_le.mpr hid]
  have hstart : startTransacaoAsync o (controller (slotWith buffer)) none =
      .ok (sentTransacao buffer, sendOn o (.ofTransacao t) none) := by
    rw [hcontroller]
    have hsent := @startTransacaoAsync_eq Unit o
      {slotWith buffer with dbData := some d, dbRequestSender := some .startTransacaoAsync} none d t rfl ht
    exact hsent
  unfold exchange
  simp only [hcontroller] at hstart ⊢
  simp only [Sender.call, hstart, sentTransacao]
  rfl

/-! ### Client 0, and client 1 -/

def asciiText (s : List UInt8) : Option (List Char) :=
  if s.all (· < 128) then some (s.map fun b => Char.ofNat b.toNat) else none

/-- The extrato of a client that does not exist. -/
def nobodysExtrato (_ : Extrato) : List UInt8 :=
  bytes "\x7b\"saldo\" : null, \"ultimas_transacoes\" : []\x7d"

def extratoZero : List UInt8 := received (bytes "GET /clientes/0/extrato HTTP/1.1\r\n\r\n")

theorem extratoZero_parsed : requestParser extratoZero = .ok ⟨.extrato, .get, 36, 0⟩ := by
  have hget : Http.phrParseRequest (bytes "GET /clientes/0/extrato HTTP/1.1\r\n\r\n") 100 =
      .ok (parsedGet (bytes "GET /clientes/0/extrato HTTP/1.1\r\n\r\n") (bytes "/clientes/0/extrato"), 36) := by
    decide +kernel
  have hselects : Selects (hits (bytes "/clientes/0/extrato")) 1 := by decide +kernel
  have hid : idFor (bytes "/clientes/0/extrato") 1 = some 0 := by decide +kernel
  exact requestParser_received (by decide +kernel) hget (by decide +kernel) (by decide +kernel) rfl hselects hid

/-- The database answers at once, with this value. -/
def answering (value : List UInt8) : Sending := ⟨0, true, [oneValue (some value)]⟩

def atOnce : List Poll := [⟨1, false⟩]

def clienteZero : Integer := .ofFin 0

/-- An extrato is asked for client 0, and answered 200. -/
theorem client_zero_found :
    ∃ db, run Db.step (Db.seeded : Db Unit) [.callExtrato () clienteZero, .select () []] = .ok db ∧
      requestParser extratoZero = .ok ⟨.extrato, .get, 36, 0⟩ ∧
      Healthy asciiText nobodysExtrato db extratoZero (answering (nobodysExtrato ⟨none, []⟩)) atOnce ∧
      ∃ reqres, exchange (answering (nobodysExtrato ⟨none, []⟩)) atOnce extratoZero = .ok reqres ∧
        status reqres.buffer = bytes "200" ∧
        ¬ (status reqres.buffer = bytes "404" ↔ ¬ db.tables.HasCliente 0) := by
  obtain ⟨db, hdb, hhistory⟩ := exists_of_map_ok (f := fun db => (db.tables, db.history))
    (b := (seeded, [.extrato () clienteZero seeded ⟨none, []⟩]))
    (show (run Db.step (Db.seeded : Db Unit) [.callExtrato () clienteZero, .select () []]).map _ = _ by
      decide +kernel)
  obtain ⟨htables, hhistory⟩ := Prod.mk.inj hhistory
  obtain ⟨reqres, hex, hstatus⟩ := exists_of_map_ok (f := fun reqres => status reqres.buffer)
    (b := bytes "200")
    (show (exchange (answering (nobodysExtrato ⟨none, []⟩)) atOnce extratoZero).map _ = _ by
      decide +kernel)
  refine ⟨db, hdb, extratoZero_parsed, ⟨rfl, rfl, fun query hquery => ?_⟩, reqres, hex, hstatus, ?_⟩
  · have hq : queryOf extratoZero = some (.getExtrato 0) := queryOf_extrato extratoZero_parsed (by decide) rfl rfl
    cases hq.symm.trans hquery
    refine ⟨_, rfl, (), seeded, ⟨none, []⟩, ?_, rfl⟩
    rw [hhistory]
    exact List.mem_singleton.mpr rfl
  · rw [hstatus, htables, hasCliente_iff rfl]
    decide

def postOne : List UInt8 := received (bytes
  "POST /clientes/1/transacoes HTTP/1.1\r\n\r\n\x7b\"valor\":1,\"tipo\":\"c\",\"descricao\":\"a\"\x7d")

theorem postOne_parsed : requestParser postOne = .ok ⟨.transacao, .post, 40, 1⟩ :=
  requestParser_parsedPost (by decide +kernel) plainPost_parsed (by decide +kernel) (by decide +kernel)

theorem postOne_valid : parseTransacoes postOne ⟨.transacao, .post, 40, 1⟩ =
    .ok ⟨1, 1, 99, [97, 0, 0, 0, 0, 0, 0, 0, 0, 0]⟩ := by
  decide +kernel

def limiteOne : Integer := .ofFin 100000

def one : Integer := .ofFin 1

def pushOne : Args := ⟨one, one, some (Varchar.cast 10 ['a'])⟩

def creditoOne : List (Act Unit) :=
  [.call () .pushCredito pushOne, .update (), .insert (), .commit ()]

/-- A credit to client 1. -/
theorem client_one_found :
    ∃ db, run Db.step (Db.seeded : Db Unit) creditoOne = .ok db ∧
      ∃ reqres, exchange (answering (rowJson limiteOne one)) atOnce postOne = .ok reqres ∧
        ((status reqres.buffer = bytes "404" ↔ ¬ db.tables.HasCliente 1) ↔ 1 ≠ 0) := by
  have hq : queryOf postOne = some (.pushCredito 1 1 [97]) :=
    queryOf_transacao postOne_parsed (by decide) rfl rfl postOne_valid
  obtain ⟨db, hdb, hhistory⟩ := exists_of_map_ok (f := fun db => db.history)
    (b := [.pushed () .pushCredito pushOne (.json limiteOne one)])
    (show (run Db.step (Db.seeded : Db Unit) creditoOne).map _ = _ by decide +kernel)
  have hhealthy : Healthy asciiText nobodysExtrato db postOne (answering (rowJson limiteOne one)) atOnce := by
    refine ⟨rfl, rfl, fun query hquery => ?_⟩
    cases hq.symm.trans hquery
    refine ⟨_, rfl, (), .json limiteOne one, ?_, nofun, rfl⟩
    rw [hhistory]
    exact List.mem_singleton.mpr rfl
  exact ⟨db, hdb, not_found_iff hdb postOne_parsed (.inr ⟨rfl, rfl, _, postOne_valid⟩) hhealthy⟩

end Rinha.Server
