import Rinha.Deployment.ExactlyOnce
import Rinha.Http.Requests
import Rinha.Json.Documents
import Rinha.Request.Valor
import Rinha.Server.Recorded
import Rinha.Server.Routes

/-! From the bytes of a request to the call in the database.

A client asks for an extrato or for a transaction by a request whose target is a route
of its own and, for a transaction, by a document in the body that names the amount, the
kind and the description, each by whatever spelling the grammars have for it (`Asks`).
The command for such a request is what was asked for, and so is the call that it is
cast to (`understood`). -/
namespace Rinha.Deployment
open Library Http Json Request Client Server Database

/-! ### What is asked for -/

inductive Asked where
  | extrato (id : Nat)
  | push (f : Push) (id valor : Nat) (descricao : Varchar 10)

def Asked.query : Asked → Query
  | extrato id => .getExtrato id
  | push .pushCredito id valor descricao => .pushCredito id valor (utf8 descricao.chars)
  | push .pushDebito id valor descricao => .pushDebito id valor (utf8 descricao.chars)

/-- The call is for the same client, of the same amount and with the same description. -/
def Asked.Is : Asked → SqlCall → Prop
  | extrato id, .extrato cliente_id_in => cliente_id_in.val = id
  | push f id valor descricao, .push g a =>
    g = f ∧ a.cliente_id_in.val = id ∧ a.valor_in.val = valor ∧ a.descricao_in = some descricao
  | _, _ => False

/-- The database reads the description as the client has written it. -/
def Asked.Decodes (decode : List UInt8 → Option (List Char)) : Asked → Prop
  | extrato _ => True
  | push _ _ _ descricao => decode (utf8 descricao.chars) = some descricao.chars

/-- The request is for a route of a client, by its method. No other route is named in
what stands behind the target. -/
structure Addressed (text : List UInt8) (m : Method) (u : Uri) (id : Nat) (r : Http.Request) : Prop where
  length : text.length ≤ maxReqRespSize
  written : ∃ lines ≤ 100, Written lines text r
  method : Named r.method m
  route : Route r.path u id
  small : bytes "/clientes/" <+: r.path
  client : id ≤ 5
  behind : ∀ hit ∈ hits (r.pathText.drop (r.path.length + 1)), hit = false

/-- The first member of this name. -/
def Holds (child : List (List UInt8 × CJson)) (name : List UInt8) (item : CJson) : Prop :=
  ∃ before member after, child = before ++ (member, item) :: after ∧ cstr member = name ∧
    ∀ m ∈ before, cstr m.1 ≠ name

/-- `tipo` for a function. -/
def tipoOf : Push → List UInt8
  | .pushCredito => bytes "c"
  | .pushDebito => bytes "d"

inductive Asks (text : List UInt8) : Asked → Prop where
  | extrato (r : Http.Request) (id : Nat) (h : Addressed text .get .extrato id r) : Asks text (.extrato id)
  /-- The amount is written as `m * 10 ^ e`. -/
  | push (r : Http.Request) (f : Push) (id valor m depth : Nat) (e : Int) (child : List (List UInt8 × CJson))
      (descricao : Varchar 10) (h : Addressed text .post .transacao id r)
      (hbody : Document depth r.body (.object child)) (hdepth : depth ≤ nestingLimit)
      (hnumber : Holds child (bytes "valor") (.number (ofDecimal false m e)))
      (hvalor : (m : ℚ) * 10 ^ e = valor) (hlt : valor < 2 ^ 53)
      (htipo : Holds child (bytes "tipo") (.string (tipoOf f)))
      (hdescricao : Holds child (bytes "descricao") (.string (utf8 descricao.chars))) (hnul : 0 ∉ utf8 descricao.chars)
      (hone : 1 ≤ (utf8 descricao.chars).length) (hten : (utf8 descricao.chars).length ≤ 10) :
      Asks text (.push f id valor descricao)

/-! ### The target -/

theorem hits_infix {s t : List UInt8} (h : s <:+: t) (ht : ∀ hit ∈ hits t, hit = false) :
    ∀ hit ∈ hits s, hit = false := by
  intro hit hmem
  obtain ⟨r, hr, rfl⟩ := List.mem_map.mp hmem
  apply Bool.eq_false_iff.mpr
  intro hoccurs
  obtain ⟨w, hw, hin⟩ := (occurs_iff r s).mp hoccurs
  have hno := ht _ (List.mem_map_of_mem hr)
  rw [(occurs_iff r t).mpr ⟨w, hw, hin.trans h⟩] at hno
  cases hno

/-- A request as it is parsed in an array of zeros. -/
theorem Addressed.parsed {text : List UInt8} {m : Method} {u : Uri} {id : Nat} {r : Http.Request}
    (h : Addressed text m u id r) : ∃ n rest, text.drop n = r.body ∧ n ≤ text.length ∧
      (received text).take maxReqRespSize = text ++ rest ∧
        phrParseRequest ((received text).take maxReqRespSize) 100 = .ok (r.behind rest, n) ∧
          NothingBehind (received text) (r.behind rest) := by
  obtain ⟨htake, hdrop⟩ := received_split h.length
  have hparse : phrParseRequest text 100 = .ok (r, text.length - r.body.length) := by
    rw [phrParseRequest_bind, parseRequest_iff.mpr h.written]
    rfl
  obtain ⟨hn, hbody, _⟩ := phrParseRequest_takes hparse
  obtain ⟨k, t, hpath⟩ := (phrParseRequest_shape hparse).path
  have hle : r.path.length + 1 ≤ r.pathText.length := by
    rw [hpath, List.length_append, List.length_cons]
    omega
  refine ⟨_, _, hbody.symm, hn, htake, ?_, ?_⟩
  · rw [htake]
    exact phrParseRequest_append _ hparse
  · apply hits_infix _ h.behind
    show cstr ((r.pathText ++ List.replicate (maxReqRespSize - text.length) 0).drop (r.path.length + 1) ++
      (received text).drop maxReqRespSize) <:+: _
    rw [hdrop, List.drop_append_of_le_length hle, List.append_assoc, ← List.replicate_succ', List.replicate_succ,
      cstr_append_nul]
    exact (List.takeWhile_prefix _).isInfix

/-- It is accepted for its route, with the body that it has. -/
theorem Addressed.accepted {text : List UInt8} {m : Method} {u : Uri} {id : Nat} {r : Http.Request}
    (h : Addressed text m u id r) (hu : u = .transacao ∨ u = .extrato) :
    ∃ d, requestParser (received text) = .ok d ∧ d.method = m ∧ d.uri = u ∧ d.id = id ∧
      ∃ rest, (received text).drop d.bodyLoc = r.body ++ 0 :: rest := by
  obtain ⟨n, rest, hbody, hn, htake, hparse, hbehind⟩ := h.parsed
  obtain ⟨d, hd, hm, hu', hid⟩ := ok_of_route hparse hbehind h.method h.route (.inr (.inr h.small))
  have hloc : d.bodyLoc = n := by
    obtain ⟨_, _, _, _, _, _, rfl⟩ := (requestParser_ok_iff hparse d).mp hd
    rfl
  refine ⟨d, hd, hm, hu', hid hu, List.replicate (maxReqRespSize - text.length) 0, ?_⟩
  have hsub : maxReqRespSize + 1 - text.length = (maxReqRespSize - text.length) + 1 := by
    have := h.length
    omega
  rw [hloc, received, memcpy, List.drop_replicate, hsub, List.drop_append_of_le_length hn, hbody, List.replicate_succ]

/-! ### The body -/

theorem Holds.getObjectItem {child : List (List UInt8 × CJson)} {name : List UInt8} {item : CJson}
    (h : Holds child name item) : (CJson.object child).getObjectItem name = some item := by
  obtain ⟨before, member, after, rfl, hname, hbefore⟩ := h
  have hfirst : (before ++ (member, item) :: after).find? (fun m => cstr m.1 = name) = some (member, item) := by
    rw [List.find?_append, List.find?_eq_none.mpr fun m hm => by simpa using hbefore m hm, List.find?_cons_of_pos]
    · rfl
    · simpa using hname
  show ((before ++ (member, item) :: after).find? (fun m => cstr m.1 = name)).map Prod.snd = _
  rw [hfirst]
  rfl

/-- A whole number below 2^53 is stored as it is, whichever numeral it is written by. -/
theorem checkValor_exact {m valor : Nat} {e : Int} (h : (m : ℚ) * 10 ^ e = valor) (hlt : valor < 2 ^ 53) :
    checkValor (some (.number (ofDecimal false m e))) = .ok valor := by
  obtain ⟨f, hf, hvalue⟩ := ofDecimal_exact false h hlt
  have hexact : f.value = ((valor : Int) : ℚ) := by
    rw [hvalue]
    simp
  have h63 : (valor : Int) < 2 ^ 63 := by omega
  have hneg : (Double.finite f).lt 0 = false := by
    rw [Bool.eq_false_iff, ne_eq, Double.lt_iff, hexact, Int.cast_lt]
    omega
  have hbelow : (Double.finite f).lt (2 ^ 63) = true := by
    rw [Double.lt_iff, hexact, Int.cast_lt]
    exact h63
  have hgt : (Double.finite f).gt int64Max = false := by
    rw [Bool.eq_false_iff, ne_eq, Double.gt_iff, hexact, Int.cast_lt, int64Max]
    omega
  have hintegral : (Double.finite f).integral = true := (Double.integral_iff f).mpr ⟨valor, hexact⟩
  obtain ⟨_, hkept⟩ := Double.toInt64_of_integral hintegral hneg hbelow
  have hsame : ∀ k : Int, (valor : Int) < k ↔ (Double.finite f).toInt64 < k := by
    intro k
    rw [← hkept, Double.lt_iff, hexact]
    exact Int.cast_lt.symm
  have hdown := (hsame (valor + 1)).mp (by omega)
  have hup := (hsame ((Double.finite f).toInt64 + 1)).mpr (by omega)
  rw [hf]
  exact (checkValor_number _ _).mpr ⟨hneg, hintegral, hgt, by omega⟩

theorem checkTipo_of (f : Push) : ∃ tipo, checkTipo (some (.string (tipoOf f))) = .ok tipo ∧
    (tipo = 99 ↔ f = .pushCredito) := by
  cases f with
  | pushCredito => exact ⟨99, rfl, by decide⟩
  | pushDebito => exact ⟨100, rfl, by decide⟩

theorem checkDescricao_string {s : List UInt8} (hnul : 0 ∉ s) (hone : 1 ≤ s.length) (hten : s.length ≤ 10) :
    ∃ descricao, checkDescricao (some (.string s)) = .ok descricao ∧ cstr descricao = s := by
  refine ⟨memcpy (List.replicate 10 0) s, ?_, ?_⟩
  · unfold checkDescricao CJson.stringValue
    simp only [cstr_eq_self hnul]
    rw [if_neg (by omega)]
  · rw [memcpy, List.drop_replicate]
    cases 10 - s.length with
    | zero => rw [List.replicate_zero, List.append_nil, cstr_eq_self hnul]
    | succ k => rw [List.replicate_succ, cstr_append_zero fun b hb h0 => hnul (h0 ▸ hb)]

/-! ### The whole request -/

theorem Asks.queryOf_eq {text : List UInt8} {asked : Asked} (h : Asks text asked) :
    queryOf (received text) = some asked.query := by
  cases h with
  | extrato r id h =>
    obtain ⟨d, hd, hm, hu, hid, _⟩ := h.accepted (.inr rfl)
    rw [queryOf_extrato hd (by rw [hid]; exact Nat.lt_succ_of_le h.client) hm hu, hid]
    rfl
  | push r f id valor m depth e child descricao h hbody hdepth hnumber hvalor hlt htipo hdescricao hnul hone hten =>
    obtain ⟨d, hd, hm, hu, hid, rest, hrest⟩ := h.accepted (.inl rfl)
    obtain ⟨tipo, htipoOf, hkind⟩ := checkTipo_of f
    obtain ⟨array, harray, hcopied⟩ := checkDescricao_string hnul hone hten
    have htransacao : parseTransacoes (received text) d = .ok ⟨id, valor, tipo, array⟩ := by
      unfold parseTransacoes
      rw [hrest, hbody.cstr_eq, hbody.parse_eq, if_pos hdepth]
      simp only [hnumber.getObjectItem, htipo.getObjectItem, hdescricao.getObjectItem,
        checkValor_exact hvalor hlt, htipoOf, harray, hid]
    rw [queryOf_transacao hd (by rw [hid]; exact Nat.lt_succ_of_le h.client) hm hu htransacao]
    unfold Query.ofTransacao
    simp only [hkind, hcopied]
    cases f with
    | pushCredito => rfl
    | pushDebito => rfl

theorem Varchar.cast_chars {n : Nat} (v : Varchar n) : Varchar.cast n v.chars = v := by
  obtain ⟨chars, fits⟩ := v
  unfold Varchar.cast
  simp only [List.take_of_length_le fits]

theorem integer_of_iff {z : Int} {n : Integer} : Integer.of z = .ok n ↔ n.val = z := by
  refine ⟨Integer.of_ok, fun h => ?_⟩
  have hlower := n.lower
  have hupper := n.upper
  rw [Integer.of, dif_pos (by omega)]
  exact congrArg _ (Integer.ext h.symm)

/-- Arguments are cast to themselves, or the call fails. -/
theorem castPush_iff {decode : List UInt8 → Option (List Char)} {f : Push} {id valor : Nat} {descricao : Varchar 10}
    (hdecode : decode (utf8 descricao.chars) = some descricao.chars) (c : SqlCall) :
    castPush decode f id valor (utf8 descricao.chars) = .ok c ↔ (Asked.push f id valor descricao).Is c := by
  unfold castPush
  simp only [hdecode, Varchar.cast_chars]
  constructor
  · intro h
    split at h
    · cases h
    · rename_i cliente_id_in hid
      split at h
      · cases h
      · rename_i valor_in hvalor
        cases h
        exact ⟨rfl, Integer.of_ok hid, Integer.of_ok hvalor, rfl⟩
  · intro h
    cases c with
    | extrato => cases h
    | push g a =>
      obtain ⟨cliente_id_in, valor_in, descricao_in⟩ := a
      obtain ⟨rfl, hid, hvalor, rfl⟩ := h
      simp only [integer_of_iff.mpr hid, integer_of_iff.mpr hvalor]

/-- The command is cast to the call that was asked for, where there is one. -/
theorem Asked.call_iff {decode : List UInt8 → Option (List Char)} {asked : Asked} (hdecode : asked.Decodes decode)
    (c : SqlCall) : call decode asked.query = .ok c ↔ asked.Is c := by
  cases asked with
  | extrato id =>
    show call decode (.getExtrato id) = .ok c ↔ _
    rw [call]
    constructor
    · intro h
      cases hid : Integer.of id with
      | error e =>
        rw [hid] at h
        cases h
      | ok cliente_id_in =>
        rw [hid] at h
        cases h
        exact Integer.of_ok hid
    · intro h
      cases c with
      | push => cases h
      | extrato cliente_id_in => rw [integer_of_iff.mpr h]
  | push f id valor descricao =>
    cases f with
    | pushCredito => exact castPush_iff hdecode c
    | pushDebito => exact castPush_iff hdecode c

/-- **A request is understood**: whatever the spelling of its parts, the command that the
server sends for it is for what was asked, and the call that the database makes of the
command is the call that was asked for, where the amount is an INTEGER, and else none. -/
theorem understood {text : List UInt8} {asked : Asked} (h : Asks text asked) :
    queryOf (received text) = some asked.query ∧
      ∀ decode, asked.Decodes decode → ∀ c, call decode asked.query = .ok c ↔ asked.Is c :=
  ⟨h.queryOf_eq, fun _ hdecode c => Asked.call_iff hdecode c⟩

/-! ### A credit of one real -/

/-- The credit of `plainBody`. -/
def umCredito : Asked := .push .pushCredito 1 1 (Varchar.cast 10 ['a'])

theorem document_plainBody : Document 1 plainBody (.object [
    umMember "valor" (.number (ofDecimal false (Library.number (bytes "1")) 0)),
    umMember "tipo" (.string (utf8 ['c'])), umMember "descricao" (.string (utf8 ['a']))]) :=
  jsonText_plainBody.document (by decide +kernel)

theorem addressed_plainPost : Addressed plainPost .post .transacao 1 (parsedPost plainPost) where
  length := by decide +kernel
  written := phrParseRequest_written plainPost_parsed
  method := rfl
  route := .transacao (bytes "1") 1 writes_one (by decide +kernel)
  small := by decide +kernel
  client := by decide
  behind := by
    rw [hits_splitOnP]
    decide +kernel

theorem asks_plainPost : Asks plainPost umCredito := by
  have hvalor : cstr (utf8 "valor".toList) = bytes "valor" := by decide +kernel
  have htipo : cstr (utf8 "tipo".toList) = bytes "tipo" ∧ cstr (utf8 "valor".toList) ≠ bytes "tipo" := by
    decide +kernel
  have hdescricao : cstr (utf8 "descricao".toList) = bytes "descricao" ∧
      cstr (utf8 "valor".toList) ≠ bytes "descricao" ∧ cstr (utf8 "tipo".toList) ≠ bytes "descricao" := by
    decide +kernel
  have hone : Library.number (bytes "1") = 1 := by decide
  refine .push _ .pushCredito 1 1 (Library.number (bytes "1")) 1 0 _ _ addressed_plainPost document_plainBody
    (by decide) ⟨[], _, _, rfl, hvalor, fun _ hm => absurd hm List.not_mem_nil⟩ ?_ (by decide)
    ⟨[_], _, _, rfl, htipo.1, List.forall_mem_singleton.mpr htipo.2⟩
    ⟨[_, _], _, _, rfl, hdescricao.1, ?_⟩ (by decide) (by decide) (by decide)
  · rw [hone]
    norm_num
  · exact List.forall_mem_cons.mpr ⟨hdescricao.2.1, List.forall_mem_singleton.mpr hdescricao.2.2⟩

theorem understood_plainPost : queryOf (received plainPost) = some (.pushCredito 1 1 (bytes "a")) ∧
    ∀ c, call latin (.pushCredito 1 1 (bytes "a")) = .ok c ↔ umCredito.Is c := by
  obtain ⟨hquery, hcall⟩ := understood asks_plainPost
  exact ⟨hquery, hcall latin (show latin (utf8 ['a']) = some ['a'] by decide)⟩

/-! ### What is done -/

variable {K P N : Nat}

section Statements
variable (decode : List UInt8 → Option (List Char)) (extratoJson : Extrato → List UInt8)

/-- What is done for a connection is what its request asks for. -/
structure CarriedOut (sys : System K P N) : Prop where
  /-- The requests are texts that there is room for. -/
  texts : ∀ k client request, .received client request ∈ (sys.servers k).log →
    ∃ text, text.length ≤ maxReqRespSize ∧ request = received text
  sent : ∀ k client text asked, .received client (received text) ∈ (sys.servers k).log → Asks text asked →
    ∀ tag query, .sent client tag query ∈ (sys.servers k).log → query = asked.query
  executed : ∀ k client text asked, .received client (received text) ∈ (sys.servers k).log → Asks text asked →
    asked.Decodes decode → ∀ x ∈ sys.executed, x.server = k →
      ∀ query, .sent client x.tag query ∈ (sys.servers k).log → asked.Is x.entry.sqlCall

/-- What a request asks for is done, where it is answered by a 200 with a reply, and the
reply is what came of it. -/
def Granted (sys : System K P N) : Prop :=
  ∀ k client text asked, .received client (received text) ∈ (sys.servers k).log → Asks text asked →
    asked.Decodes decode → ∀ buffer command, .wrote client buffer (some command) ∈ (sys.servers k).log →
      status buffer = bytes "200" → GivesReply buffer command ∧ ∃ x ∈ sys.executed, x.server = k ∧
        .sent client x.tag asked.query ∈ (sys.servers k).log ∧ asked.Is x.entry.sqlCall ∧ x.entry.Done ∧
          command.results = [x.entry.result extratoJson]

end Statements

variable {decode : List UInt8 → Option (List Char)} {extratoJson : Extrato → List UInt8}

theorem Linked.carriedOut {sys : System K P N} (h : Linked decode extratoJson sys)
    (hnumbered : ∀ k, Numbered (sys.servers k)) (hrecorded : ∀ k, Recorded (sys.servers k)) :
    CarriedOut decode sys := by
  have hsent : ∀ k client text asked, .received client (received text) ∈ (sys.servers k).log → Asks text asked →
      ∀ tag query, .sent client tag query ∈ (sys.servers k).log → query = asked.query := by
    intro k client text asked hreceived hasks tag query hsent
    have hexchange := (h.instances k).talks.exchange client
    obtain ⟨request, hreceived', hquery⟩ := hexchange.sent_request (mem_talk.mpr hsent)
    rw [(hnumbered k).one client request _ (mem_talk.mp hreceived') hreceived, hasks.queryOf_eq] at hquery
    exact (Option.some.inj hquery).symm
  refine ⟨fun k => (hrecorded k).texts, hsent, ?_⟩
  intro k client text asked hreceived hasks hdecode x hx hserver query hq
  subst hserver
  obtain ⟨_, client', query', hq', hcall⟩ := h.requested x hx
  obtain ⟨_, rfl⟩ := (hrecorded x.server).apart x.tag client client' query query' hq hq'
  rw [hsent x.server client text asked hreceived hasks x.tag query hq] at hcall
  exact (Asked.call_iff hdecode _).mp hcall

theorem carried_event {sys sys' : System K P N} {event : Event K N}
    (h : Linked decode extratoJson sys ∧ ∀ k, Numbered (sys.servers k) ∧ Recorded (sys.servers k))
    (hs : sys.step decode extratoJson event = .ok sys') :
    Linked decode extratoJson sys' ∧ ∀ k, Numbered (sys'.servers k) ∧ Recorded (sys'.servers k) := by
  refine ⟨linked_step h.1 hs, System.step_servers (Q := fun s => Numbered s ∧ Recorded s) hs h.2
    fun k input s _ hstep => ?_⟩
  have hcons := (h.1.instances k).consistent
  exact ⟨(numbered_step ⟨hcons, (h.2 k).1⟩ hstep).2, (recorded_step ⟨hcons, (h.2 k).2⟩ hstep).2⟩

/-- **Nothing is done but what was asked for**, in every run of the servers and their
database: of a request that is written in the grammar no command is sent but its own, and
no call is executed but the one that it asks for, whatever else happens. -/
theorem carried_out {s : State P N} (hs : (State.start : Except Stop (State P N)) = .ok s)
    (events : List (Event K N)) :
    Throughout (System.step decode extratoJson) (CarriedOut decode) (System.boot s) events :=
  (throughout_of_all (fun _ _ _ => carried_event) ⟨linked_boot hs, fun _ => ⟨numbered_start hs, recorded_start hs⟩⟩
    events).mono fun _ h => h.1.carriedOut (fun k => (h.2 k).1) fun k => (h.2 k).2

/-- **What was asked for is done where the client is told so**: in every run with clean
turns, a 200 with a reply on a connection whose request is written in the grammar tells
the outcome of the call that the request asks for. -/
theorem granted {s : State P N} (hs : (State.start : Except Stop (State P N)) = .ok s)
    (events : List (Event K N)) (h : EachStep (System.step decode extratoJson) CleanEvent (System.boot s) events) :
    Throughout (System.step decode extratoJson) (Granted decode extratoJson) (System.boot s) events := by
  apply (throughout_of_steps (fun _ _ _ => sound_event)
    ⟨linked_boot hs, fun _ => sound_start hs⟩ h).mono
  intro sys h k client text asked hreceived hasks hdecode buffer command hmem hstatus
  obtain ⟨request, htalk, hquery, x, hx, hexecutes⟩ := h.1.ownExecution h.2 k client buffer command hmem hstatus
  have hown : received text = request := by
    have hin := mem_talk.mpr hreceived
    rw [show (Obs.received client (received text)).of = client from rfl, htalk] at hin
    simpa using hin
  have hsent : .sent client command.tag command.query ∈ (sys.servers k).log :=
    mem_talk.mp (by rw [show (Obs.sent client command.tag command.query).of = client from rfl, htalk]; simp)
  rw [← hown, hasks.queryOf_eq] at hquery
  have hcall := hexecutes.call
  rw [← Option.some.inj hquery] at hsent hcall
  exact ⟨((h.1.instances k).executes hmem hstatus).1, x, hx, hexecutes.server, hexecutes.tag ▸ hsent,
    (Asked.call_iff hdecode _).mp hcall, hexecutes.done, hexecutes.results⟩

/-- This was received from this client. -/
def receives (client : Nat) (request : List UInt8) : Obs → Bool
  | .received client' request' => client' == client && request' == request
  | .sent .. => false
  | .wrote .. => false

/-- What is recorded in the run of a credit. -/
theorem creditRun_recorded :
    ∃ (s : State 2 1) (sys : System 2 2 1), State.start = .ok s ∧
      run (System.step latin noText) (System.boot s) creditRun = .ok sys ∧
      EachStep (System.step latin noText) CleanEvent (System.boot s : System 2 2 1) creditRun ∧
        .received 0 (received (postHead ++ plainBody)) ∈ (sys.servers 1).log ∧
          ∃ buffer command, .wrote 0 buffer (some command) ∈ (sys.servers 1).log ∧ status buffer = bytes "200" := by
  obtain ⟨s, sys, hs, hsys, hC, _, hdelivered⟩ := creditRun_runs
  obtain ⟨s', hs', hlog⟩ := exists_of_map_ok (x := (State.start : Except Stop (State 2 1)))
    (f := fun s => (run (System.step latin noText) (System.boot s : System 2 2 1) creditRun).map fun sys =>
      ((sys.servers 1).log.map Obs.of, (sys.servers 1).log.any (receives 0 (received (postHead ++ plainBody)))))
    (b := .ok ([0, 0, 0], true)) (by decide +kernel)
  obtain rfl : s = s' := by
    rw [hs] at hs'
    exact Except.ok.inj hs'
  rw [hsys] at hlog
  obtain ⟨hof, hany⟩ := Prod.mk.inj (Except.ok.inj hlog)
  refine ⟨s, sys, hs, hsys, hC, ?_, ?_⟩
  · obtain ⟨o, ho, hreceives⟩ := List.any_eq_true.mp hany
    cases o with
    | received client request =>
      obtain ⟨hclient, hrequest⟩ := Bool.and_eq_true_iff.mp hreceives
      rw [← eq_of_beq hclient, ← eq_of_beq hrequest]
      exact ho
    | sent => cases hreceives
    | wrote => cases hreceives
  have hgiven : 0 ∈ delivered (sys.servers 1).log := by rw [hdelivered]; exact List.mem_singleton_self 0
  obtain ⟨o, ho, hsome⟩ := List.mem_filterMap.mp hgiven
  have hclient : o.of = 0 := by
    have hmem := List.mem_map_of_mem (f := Obs.of) ho
    rw [hof] at hmem
    simpa using hmem
  cases o with
  | received => cases hsome
  | sent => cases hsome
  | wrote client buffer source =>
    cases source with
    | none => cases hsome
    | some command =>
      obtain rfl : client = 0 := hclient
      refine ⟨buffer, command, ho, ?_⟩
      by_contra hstatus
      simp [hstatus] at hsome

theorem asks_plainBody : Asks (postHead ++ plainBody) umCredito := by
  rw [show postHead ++ plainBody = plainPost by decide +kernel]
  exact asks_plainPost

/-- Whatever is sent in it for the client is the credit. -/
theorem carried_out_creditRun :
    ∃ (s : State 2 1) (sys : System 2 2 1), State.start = .ok s ∧
      run (System.step latin noText) (System.boot s) creditRun = .ok sys ∧
        .received 0 (received (postHead ++ plainBody)) ∈ (sys.servers 1).log ∧
          ∀ tag query, .sent 0 tag query ∈ (sys.servers 1).log → query = umCredito.query := by
  obtain ⟨s, sys, hs, hsys, _, hreceived, _⟩ := creditRun_recorded
  exact ⟨s, sys, hs, hsys, hreceived, ((carried_out hs creditRun).last hsys).sent 1 0 _ _ hreceived asks_plainBody⟩

/-- And it is executed. -/
theorem granted_creditRun :
    ∃ (s : State 2 1) (sys : System 2 2 1), State.start = .ok s ∧
      run (System.step latin noText) (System.boot s) creditRun = .ok sys ∧
        ∃ x ∈ sys.executed, umCredito.Is x.entry.sqlCall ∧ x.entry.Done := by
  obtain ⟨s, sys, hs, hsys, hC, hreceived, buffer, command, hmem, hstatus⟩ := creditRun_recorded
  obtain ⟨_, x, hx, _, _, his, hdone, _⟩ := (granted hs creditRun hC).last hsys 1 0 _ _ hreceived asks_plainBody
    (show latin (utf8 ['a']) = some ['a'] by decide) buffer command hmem hstatus
  exact ⟨s, sys, hs, hsys, x, hx, his, hdone⟩

end Rinha.Deployment
