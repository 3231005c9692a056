import Rinha.Database.Reading
import Rinha.Database.Records
import Rinha.Deployment.Understood
import Rinha.Server.Framing

/-! What the clients read.

The body of a 200 with a reply, parsed, is what its call returned: of a transaction the
limite and the saldo, of an extrato what the calls for the client add up to that were
executed before it, and the latest of them. Each of these is a call that some client's
request asked for, and what this client spelled as its description is what is read in
the extrato, character by character (`told`). -/
namespace Rinha.Deployment
open Library Client Server Database

variable {K P N : Nat}

/-! ### Reading a response -/

/-- To who parses it the body of the response is this value, and it is as long as the
response says. -/
def Readable (buffer : List UInt8) (item : Json.CJson) : Prop :=
  ∃ body, responseBody (responseText buffer) = some body ∧
    contentLength (responseText buffer) = some body.length ∧
      ∀ rest, Json.cJSONParse (cstr (body ++ 0 :: rest)) = some item

theorem replyText_oneValue {k : Nat} {reply : List UInt8} (h : Text k reply) (hk : k ≤ 1999) :
    replyText (oneValue (some reply)) = reply := by
  show (cstr reply).take (2000 - 1) = reply
  rw [cstr_eq_self h.noNul, List.take_of_length_le (h.length.trans hk)]

theorem readable_of_gives {buffer reply : List UInt8} {command : Command} {k j : Nat} {item : Json.CJson}
    (h : GivesReply buffer command) (hresults : command.results = [oneValue (some reply)]) (htext : Text k reply)
    (hk : k ≤ 1999) (hitem : Within j reply item) (hj : j ≤ Json.nestingLimit) : Readable buffer item := by
  obtain ⟨request, result, hhead, _, _, hbuffer⟩ := h
  rw [hresults] at hhead
  cases hhead
  rw [replyText_oneValue htext hk] at hbuffer
  have hresponse : responseText buffer = okText (reply.length + 1) reply := by
    rw [hbuffer]
    exact responseText_okReply ({ReqRes.zero with buffer := request} : ReqRes Unit) htext.ne_zero
      ((htext.length.trans hk).trans (by decide))
  refine ⟨reply ++ bytes "\n", ?_, ?_, hitem.parse_eq hj⟩
  · rw [hresponse]
    exact responseBody_okText _ reply
  · rw [hresponse, List.length_append]
    have hlength := htext.length
    exact contentLength_okText (n := reply.length + 1) (by unfold uint64Max; omega) reply

/-- What the reply of a call that was done is read as. -/
def itemOf (timestamp : Nat → Timestamp) {σ : Type*} : Entry σ → Option Json.CJson
  | .pushed _ _ _ (.json limite saldo) => some (rowItem limite saldo)
  | .pushed _ _ _ .null => none
  | .pushed _ _ _ (.raised _) => none
  | .extrato _ _ _ reply => some (reply.item timestamp)
  | .noExtrato _ _ => none

theorem readable_of_done {timestamp : Nat → Timestamp} {σ : Type*} {e : Entry σ} {buffer : List UInt8}
    {command : Command} (hdone : e.Done) (hresults : command.results = [e.result (Extrato.json timestamp)])
    (hrows : ∀ s id snapshot reply, e = .extrato s id snapshot reply → reply.ultimas_transacoes.length ≤ 10)
    (h : GivesReply buffer command) : ∃ item ∈ itemOf timestamp e, Readable buffer item := by
  cases e with
  | pushed s f a reply =>
    obtain ⟨limite, saldo, rfl⟩ := hdone
    exact ⟨_, rfl, readable_of_gives h hresults (rowJson_text limite saldo) (by decide) (rowJson_within limite saldo)
      (by decide)⟩
  | extrato s id snapshot reply =>
    exact ⟨_, rfl, readable_of_gives h hresults (reply.json_text timestamp (hrows _ _ _ _ rfl)) (by decide)
      (reply.within timestamp) (by decide)⟩
  | noExtrato s id => cases hdone

/-! ### Whose transactions are read -/

/-- What is recorded is the call's own. -/
theorem sqlCall_of_record {σ : Type*} {e : Entry σ} {r : Record} (h : e.record = some r) :
    ∃ f : Push, f.tipo = r.tipo ∧ e.sqlCall = .push f ⟨r.cliente_id, r.valor, some r.descricao⟩ := by
  cases e with
  | pushed s f a reply =>
    cases reply with
    | json limite saldo =>
      obtain ⟨descricao, hdescricao, rfl⟩ := Option.map_eq_some_iff.mp h
      refine ⟨f, rfl, ?_⟩
      rw [← hdescricao]
      rfl
    | null => cases h
    | raised e => cases h
  | extrato => cases h
  | noExtrato => cases h

section Statements
variable (decode : List UInt8 → Option (List Char)) (timestamp : Nat → Timestamp)

/-- What an extrato says of the executions before it: their sum, and the latest rows,
each of an execution that some connection's request asked for. -/
structure Shown (sys : System K P N) (before : List (Execution K N)) (id : Integer) (reply : Extrato) : Prop where
  shows : Shows (before.map Execution.entry) id reply
  asked : ∀ r ∈ reply.ultimas_transacoes, ∃ y ∈ before, y.entry.record = some r.record ∧
    ∃ client query, .sent client y.tag query ∈ (sys.servers y.server).log ∧
      ∀ text asked, .received client (received text) ∈ (sys.servers y.server).log → Asks text asked →
        asked.Decodes decode →
          ∃ f : Push, f.tipo = r.tipo ∧ asked.Is (.push f ⟨r.cliente_id, r.valor, some r.descricao⟩)

/-- The 200s with a reply are read as what their executions returned. -/
def Told (sys : System K P N) : Prop :=
  ∀ k client buffer command, .wrote client buffer (some command) ∈ (sys.servers k).log →
    status buffer = bytes "200" → ∃ before x after, sys.executed = before ++ x :: after ∧
      x.server = k ∧ x.tag = command.tag ∧ (∃ item ∈ itemOf timestamp x.entry, Readable buffer item) ∧
        ∀ s id snapshot reply, x.entry = .extrato s id snapshot reply → Shown decode sys before id reply

end Statements

variable {decode : List UInt8 → Option (List Char)} {timestamp : Nat → Timestamp}

theorem Linked.shows {extratoJson : Extrato → List UInt8} {sys : System K P N} (h : Linked decode extratoJson sys)
    {before after : List (Execution K N)} {x : Execution K N} (hsplit : sys.executed = before ++ x :: after)
    {s : Session K N} {id : Integer} {snapshot : Tables} {reply : Extrato}
    (hx : x.entry = .extrato s id snapshot reply) : Shows (before.map Execution.entry) id reply := by
  have hentries : sys.db.history =
      before.map Execution.entry ++ .extrato s id snapshot reply :: after.map Execution.entry := by
    rw [← h.entries, hsplit, List.map_append, List.map_cons, hx]
  exact shows_of_replays h.replays hentries

theorem Linked.tells {sys : System K P N} (h : Linked decode (Extrato.json timestamp) sys)
    (hcarried : CarriedOut decode sys) : Told decode timestamp sys := by
  intro k client buffer command hmem hstatus
  obtain ⟨hgives, x, hx, hexecutes⟩ := (h.instances k).executes hmem hstatus
  obtain ⟨before, after, hsplit⟩ := List.append_of_mem hx
  have hbefore : ∀ y ∈ before, y ∈ sys.executed := fun y hy => hsplit ▸ List.mem_append_left _ hy
  refine ⟨before, x, after, hsplit, hexecutes.server, hexecutes.tag, ?_, fun s id snapshot reply hentry => ?_⟩
  · refine readable_of_done hexecutes.done hexecutes.results (fun s id snapshot reply hentry => ?_) hgives
    obtain ⟨rows, _, _, hlatest⟩ := (h.shows hsplit hentry).latest
    rw [hlatest]
    exact List.length_take_le 10 rows
  · have hshows := h.shows hsplit hentry
    refine ⟨hshows, fun r hr => ?_⟩
    obtain ⟨rows, hperm, _, hlatest⟩ := hshows.latest
    rw [hlatest] at hr
    have haccepted := hperm.subset (List.mem_map_of_mem (List.mem_of_mem_take hr))
    obtain ⟨e, he, hrecord⟩ := List.mem_filterMap.mp (List.mem_of_mem_filter haccepted)
    obtain ⟨y, hy, rfl⟩ := List.mem_map.mp he
    obtain ⟨_, client, query, hsent, _⟩ := h.requested y (hbefore y hy)
    refine ⟨y, hy, hrecord, client, query, hsent, fun text asked hreceived hasks hdecode => ?_⟩
    obtain ⟨f, htipo, hcall⟩ := sqlCall_of_record hrecord
    have his := hcarried.executed y.server client text asked hreceived hasks hdecode y (hbefore y hy) rfl query hsent
    rw [hcall] at his
    exact ⟨f, htipo, his⟩

/-- **What was asked for is what is read**, in every run of the servers and their
database. -/
theorem told {s : State P N} (hs : (State.start : Except Stop (State P N)) = .ok s) (events : List (Event K N)) :
    Throughout (System.step decode (Extrato.json timestamp)) (Told decode timestamp) (System.boot s) events :=
  (throughout_of_all (fun _ _ _ => carried_event) ⟨linked_boot hs, fun _ => ⟨numbered_start hs, recorded_start hs⟩⟩
    events).mono fun _ h => h.1.tells (h.1.carriedOut (fun k => (h.2 k).1) fun k => (h.2 k).2)

/-! ### A credit that is read -/

/-- A clock that stands still. -/
def relogio (_ : Nat) : Timestamp := fullTr.realizada_em

def umaLinha : Database.Transacao := ⟨1, Integer.ofFin 1, Integer.ofFin 1, 'c', Varchar.cast 10 ['a'], 0⟩

def umExtrato : Extrato := ⟨some ⟨Integer.ofFin 1, 0, Integer.ofFin 100000⟩, [umaLinha]⟩

/-- The connection of the first instance. -/
def primeira : Session 2 1 := (⟨0, Nat.two_pos⟩, ⟨0, Nat.one_pos⟩)

/-- The credit of `creditRun`, and then the first instance reads `getExtrato`. -/
def readRun : List (Event 2 1) :=
  creditRun ++ [.server primeira.1 (done 0 6 []),
    .server primeira.1 (.completes ⟨0, 36, getExtrato, []⟩ fun _ =>
      ⟨true, [oneValue (some (umExtrato.json relogio))]⟩),
    .database (.callExtrato primeira umaLinha.cliente_id), .database (.select primeira [umaLinha]),
    .server primeira.1 (done 1 0 []), .server primeira.1 (done 1 100 []), .server primeira.1 (done 1 0 [])]

/-- The one row is the credit's. -/
theorem told_readRun : ∃ (s : State 2 1) (sys : System 2 2 1), State.start = .ok s ∧
    run (System.step latin (Extrato.json relogio)) (System.boot s) readRun = .ok sys ∧
      delivered (sys.servers primeira.1).log = [0] ∧ sys.executed.length = 2 ∧ Told latin relogio sys := by
  obtain ⟨s, hs, hrun⟩ := exists_of_map_ok (x := (State.start : Except Stop (State 2 1)))
    (f := fun s =>
      (run (System.step latin (Extrato.json relogio)) (System.boot s : System 2 2 1) readRun).map fun sys =>
        (delivered (sys.servers primeira.1).log, sys.executed.length))
    (b := .ok ([0], 2)) (by decide +kernel)
  obtain ⟨sys, hsys, hends⟩ := exists_of_map_ok hrun
  obtain ⟨hdelivered, hexecuted⟩ := Prod.mk.inj hends
  exact ⟨s, sys, hs, hsys, hdelivered, hexecuted, (told hs readRun).last hsys⟩

end Rinha.Deployment
