import Rinha.Server.Noninterference

/-! Whether `request_parser` accepts the targets of the grammar, and no others.

Where no expression matches behind the target, the parser looks at the method token
and the target alone. It takes a method that only begins with a known one, and a target
with something around its route; and it does not take a route with a number whose first
letters are not small ones. Elsewhere it follows the grammar (`followsGrammar_iff`). -/
namespace Rinha.Server
open Library Http Request

/-- `request_parser` accepts what is in the grammar, with the method, the route and the
id that the grammar gives it, and refuses what is not. -/
def FollowsGrammar (buff : List UInt8) (r : Http.Request) : Prop :=
  (∀ m u id, (∃ d, requestParser buff = .ok d ∧ d.method = m ∧ d.uri = u ∧
      (u = .transacao ∨ u = .extrato → d.id = id)) ↔ Named r.method m ∧ Route r.path u id) ∧
    ∀ e, requestParser buff = .error e → e = .invalid

/-- A request that is not parsed as the grammar has it. In the first two cases it is
accepted, for the route that its target is taken for; in the last it is refused. -/
inductive Misread (r : Http.Request) : Prop where
  /-- The method token goes on behind the method's name. -/
  | method (m : Method) (u : Uri) (hrouted : RoutedTo r r.path m u) (hlonger : ¬ Named r.method m)
  /-- The target has more in it than the route. -/
  | around (m : Method) (u : Uri) (hrouted : RoutedTo r r.path m u) (hmore : ∀ id, ¬ Route r.path u id)
  /-- The letters before the number are not small ones. -/
  | capitals (m : Method) (u : Uri) (id : Nat) (hmethod : Named r.method m) (hroute : Route r.path u id)
      (hu : u = .transacao ∨ u = .extrato) (hcapitals : ¬ bytes "/clientes/" <+: r.path)

/-- The routes without a number have no id of their own. -/
theorem Route.of_id {target : List UInt8} {u : Uri} {id id' : Nat} (h : Route target u id)
    (hid : u = .transacao ∨ u = .extrato → id = id') : Route target u id' := by
  cases h with
  | transacao digits _ hw htarget => exact hid (.inl rfl) ▸ .transacao digits _ hw htarget
  | extrato digits _ hw htarget => exact hid (.inr rfl) ▸ .extrato digits _ hw htarget
  | exit _ htarget => exact .exit id' htarget
  | ping _ htarget => exact .ping id' htarget

section Routes
variable {buff : List UInt8} {r : Http.Request} {n : Nat}

/-- Nothing behind the target is looked at where no expression matches there. -/
theorem NothingBehind.routedTo (hbehind : NothingBehind buff r) (m : Method) (u : Uri) :
    RoutedTo r (searched buff r) m u ↔ RoutedTo r r.path m u := by
  have htaken := hbehind.nothingAdded.takenFor (path_infix_searched buff r) u
  exact ⟨fun h => ⟨h.method, htaken.mp h.route, h.number⟩, fun h => ⟨h.method, htaken.mpr h.route, h.number⟩⟩

/-- The id of what is accepted for a target in the grammar is the grammar's. -/
theorem id_of_route (h : phrParseRequest (buff.take maxReqRespSize) 100 = .ok (r, n)) {d : RequestData} {id : Nat}
    (hd : requestParser buff = .ok d) (hroute : Route r.path d.uri id) :
    (d.uri = .transacao ∨ d.uri = .extrato → d.id = id ∧ bytes "/clientes/" <+: r.path) := by
  obtain ⟨m, k, id', hm, hk, hid, rfl⟩ := (requestParser_ok_iff h d).mp hd
  intro hu
  obtain ⟨k', heq, hk', hcase⟩ := hroute.selects
  obtain rfl := ofIndex_inj (selects_lt hk) (hits_lt hk'.1) heq
  have h23 : ¬ (k = 2 ∨ k = 3) := by
    rintro (rfl | rfl)
    · rcases hu with hu | hu <;> cases hu
    · rcases hu with hu | hu <;> cases hu
  rw [not_or] at h23
  have hscan := (hcase.resolve_left h23.1).resolve_left h23.2
  rw [idFor, if_neg (not_or.mpr h23), hscan] at hid
  split at hid
  · exact ⟨(Option.some.inj hid).symm, ‹_›⟩
  · cases hid

/-- What is in the grammar, with small letters before a number, is accepted. -/
theorem ok_of_route (h : phrParseRequest (buff.take maxReqRespSize) 100 = .ok (r, n))
    (hbehind : NothingBehind buff r) {m : Method} {u : Uri} {id : Nat} (hm : Named r.method m)
    (hroute : Route r.path u id) (hsmall : u = .exit ∨ u = .ping ∨ bytes "/clientes/" <+: r.path) :
    ∃ d, requestParser buff = .ok d ∧ d.method = m ∧ d.uri = u ∧ (u = .transacao ∨ u = .extrato → d.id = id) := by
  obtain ⟨k, id', rfl, hk, hid', hsame⟩ := idFor_route hroute hsmall
  have hok := (requestParser_ok_iff h _).mpr
    ⟨m, k, id', hm.mapMethod, (hbehind.nothingAdded.selects k).mpr hk, hid', rfl⟩
  exact ⟨_, hok, rfl, rfl, hsame⟩

/-- For every request in which no expression matches behind the target: the parser
follows the grammar, unless the method goes on behind its name, something stands around
the route, or capitals stand before its number. -/
theorem followsGrammar_iff (h : phrParseRequest (buff.take maxReqRespSize) 100 = .ok (r, n))
    (hbehind : NothingBehind buff r) : FollowsGrammar buff r ↔ ¬ Misread r := by
  constructor
  · intro hfollows hmisread
    have hparsed : ∀ m u, RoutedTo r r.path m u → Named r.method m ∧ ∃ id, Route r.path u id := by
      intro m u hrouted
      obtain ⟨d, hd, rfl, rfl⟩ := (requestParser_routedTo h _ _).mpr ((hbehind.routedTo m u).mpr hrouted)
      obtain ⟨hm, hroute⟩ := (hfollows.1 _ _ d.id).mp ⟨d, hd, rfl, rfl, fun _ => rfl⟩
      exact ⟨hm, _, hroute⟩
    cases hmisread with
    | method m u hrouted hlonger => exact hlonger (hparsed m u hrouted).1
    | around m u hrouted hmore =>
      obtain ⟨_, id, hroute⟩ := hparsed m u hrouted
      exact hmore id hroute
    | capitals m u id hmethod hroute hu hcapitals =>
      obtain ⟨d, hd, _, rfl, _⟩ := (hfollows.1 m u id).mpr ⟨hmethod, hroute⟩
      exact hcapitals (id_of_route h hd hroute hu).2
  · intro hread
    refine ⟨fun m u id => ⟨fun hok => ?_, fun hin => ?_⟩, fun e he => requestParser_error he⟩
    · obtain ⟨d, hd, rfl, rfl, hid⟩ := hok
      have hrouted := (hbehind.routedTo _ _).mp ((requestParser_routedTo h _ _).mp ⟨d, hd, rfl, rfl⟩)
      obtain ⟨id', hroute⟩ : ∃ id', Route r.path d.uri id' := by
        by_contra hno
        exact hread (.around _ _ hrouted fun id' hroute => hno ⟨id', hroute⟩)
      have hnamed : Named r.method d.method := by
        by_contra hno
        exact hread (.method _ _ hrouted hno)
      exact ⟨hnamed, Route.of_id hroute fun hu => ((id_of_route h hd hroute hu).1.symm.trans (hid hu))⟩
    · refine ok_of_route h hbehind hin.1 hin.2 ?_
      by_contra hno
      rw [not_or, not_or] at hno
      obtain ⟨hexit, hping, hcapitals⟩ := hno
      have hu : u = .transacao ∨ u = .extrato := by
        cases u with
        | transacao => exact .inl rfl
        | extrato => exact .inr rfl
        | exit => exact absurd rfl hexit
        | ping => exact absurd rfl hping
      exact hread (.capitals m u id hin.1 hin.2 hu hcapitals)

end Routes

/-! ### A request in an empty buffer -/

/-- Without an ending behind its target, it is accepted as the target has it. -/
theorem requestParser_received {text : List UInt8} {r : Http.Request} {m : Method} {n k id : Nat}
    (hlen : text.length ≤ maxReqRespSize) (h : phrParseRequest text 100 = .ok (r, n))
    (htext : ∀ b ∈ r.pathText, b ≠ 0)
    (hbehind : ∀ s ∈ endings, ¬ bytes s <:+: (r.pathText.drop (r.path.length + 1)).map lower)
    (hm : mapMethod r.method = some m) (hk : Selects (hits r.path) k) (hid : idFor r.path k = some id) :
    requestParser (received text) = .ok ⟨Uri.ofIndex k, m, n, id⟩ := by
  obtain ⟨r', hr, hmethod, hpath, hdrop⟩ := parse_received hlen h htext
  rw [← hdrop] at hbehind
  rw [← hpath] at hk hid
  have hselects : Selects (matched (received text) r') k :=
    ((nothingBehind_of_endings hbehind).nothingAdded.selects k).mpr hk
  exact (requestParser_ok_iff hr _).mpr ⟨m, k, id, hmethod ▸ hm, hselects, hid, rfl⟩

/-- So is a transaction of client 1. -/
theorem requestParser_parsedPost {text : List UInt8} (hlen : text.length ≤ maxReqRespSize)
    (h : phrParseRequest text 100 = .ok (parsedPost text, 40)) (htext : ∀ b ∈ text.drop 5, b ≠ 0)
    (hbehind : ∀ s ∈ endings, ¬ bytes s <:+: ((text.drop 5).drop 23).map lower) :
    requestParser (received text) = .ok ⟨.transacao, .post, 40, 1⟩ := by
  have hselects : Selects (hits (parsedPost text).path) 0 := by
    show Selects (hits (bytes "/clientes/1/transacoes")) 0
    decide +kernel
  have hid : idFor (parsedPost text).path 0 = some 1 := by
    show idFor (bytes "/clientes/1/transacoes") 0 = some 1
    decide +kernel
  exact requestParser_received hlen h htext hbehind rfl hselects hid

/-! ### Three targets -/

def getPingpong : List UInt8 := bytes "GET /pingpong HTTP/1.1\r\n\r\n"

def getCapitals : List UInt8 := bytes "GET /CLIENTES/1/extrato HTTP/1.1\r\n\r\n"

def getExtratoUm : List UInt8 := bytes "GET /clientes/1/extrato HTTP/1.1\r\n\r\n"

/-- A GET as it is parsed, for a target and the bytes from it to the end. -/
def parsedGet (text path : List UInt8) : Http.Request where
  method := bytes "GET"
  methodText := text
  path := path
  pathText := text.drop 4
  minorVersion := 1
  body := []

theorem getPingpong_parsed :
    phrParseRequest getPingpong 100 = .ok (parsedGet getPingpong (bytes "/pingpong"), 26) := by
  decide +kernel

theorem getCapitals_parsed :
    phrParseRequest getCapitals 100 = .ok (parsedGet getCapitals (bytes "/CLIENTES/1/extrato"), 36) := by
  decide +kernel

theorem getExtratoUm_parsed :
    phrParseRequest getExtratoUm 100 = .ok (parsedGet getExtratoUm (bytes "/clientes/1/extrato"), 36) := by
  decide +kernel

theorem writes_one : Writes (bytes "1") 1 := ⟨by decide +kernel, by decide +kernel, by decide +kernel⟩

/-- The first of them is accepted as a ping, and the second refused. -/
theorem pingpong_accepted :
    (∃ r n, phrParseRequest ((received getPingpong).take maxReqRespSize) 100 = .ok (r, n) ∧
      NothingBehind (received getPingpong) r ∧ ¬ FollowsGrammar (received getPingpong) r) ∧
    ∃ r n, phrParseRequest ((received getCapitals).take maxReqRespSize) 100 = .ok (r, n) ∧
      NothingBehind (received getCapitals) r ∧ ¬ FollowsGrammar (received getCapitals) r := by
  constructor
  · obtain ⟨r, hr, hmethod, hpath, hbehind⟩ :=
      parse_received (by decide +kernel) getPingpong_parsed (by decide +kernel)
    refine ⟨r, 26, hr, by rw [NothingBehind, hbehind]; decide +kernel, fun h => ?_⟩
    have hok := (requestParser_ok_iff hr _).mpr
      ⟨.get, 3, uint64Max, by rw [hmethod]; decide, by rw [matched, hbehind, hpath]; decide +kernel, rfl, rfl⟩
    obtain ⟨_, hroute⟩ := (h.1 .get .ping 0).mp ⟨_, hok, rfl, rfl, fun hu => by rcases hu with hu | hu <;> cases hu⟩
    rw [hpath] at hroute
    cases hroute with
    | ping _ htarget => exact absurd htarget (by decide)
  · obtain ⟨r, hr, hmethod, hpath, hbehind⟩ :=
      parse_received (by decide +kernel) getCapitals_parsed (by decide +kernel)
    refine ⟨r, 36, hr, by rw [NothingBehind, hbehind]; decide +kernel, fun h => ?_⟩
    have hroute : Route r.path .extrato 1 := by
      rw [hpath]
      exact .extrato (bytes "1") 1 writes_one (by decide)
    obtain ⟨d, hd, _⟩ := (h.1 .get .extrato 1).mpr ⟨hmethod, hroute⟩
    obtain ⟨m, k, id, _, hk, hid, _⟩ := (requestParser_ok_iff hr d).mp hd
    have hone : Selects (matched (received getCapitals) r) 1 := by
      rw [matched, hbehind, hpath]
      decide +kernel
    obtain rfl := hk.unique hone
    have hnone : idFor (bytes "/CLIENTES/1/extrato") 1 = none := by decide +kernel
    rw [hpath] at hid
    cases hnone.symm.trans hid

/-- The third, which is written as the grammar has it. -/
theorem followsGrammar_getExtratoUm :
    ∃ r n, phrParseRequest ((received getExtratoUm).take maxReqRespSize) 100 = .ok (r, n) ∧
      NothingBehind (received getExtratoUm) r ∧ FollowsGrammar (received getExtratoUm) r := by
  obtain ⟨r, hr, hmethod, hpath, hbehind⟩ :=
    parse_received (by decide +kernel) getExtratoUm_parsed (by decide +kernel)
  have hnothing : NothingBehind (received getExtratoUm) r := by
    rw [NothingBehind, hbehind]
    decide +kernel
  have hroute : Route r.path .extrato 1 := by
    rw [hpath]
    exact .extrato (bytes "1") 1 writes_one (by decide)
  refine ⟨r, 36, hr, hnothing, (followsGrammar_iff hr hnothing).mpr fun hmisread => ?_⟩
  have hnamed : ∀ m, BeginsWith r.method m → Named r.method m := by
    intro m hbegins
    have hm := mapMethod_iff.mpr hbegins
    rw [hmethod] at hm ⊢
    cases hm
    rfl
  cases hmisread with
  | method m u hrouted hlonger => exact hlonger (hnamed m hrouted.method)
  | around m u hrouted hmore =>
    obtain rfl := hrouted.route.unique hroute.takenFor
    exact hmore 1 hroute
  | capitals m u id _ _ _ hcapitals =>
    rw [hpath] at hcapitals
    exact hcapitals (by decide)

end Rinha.Server
