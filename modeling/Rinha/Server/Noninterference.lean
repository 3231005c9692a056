import Rinha.Request.Grammar
import Rinha.Server.Controller

/-! What the routing of a request depends on.

The method and the id are read from the method token and the target alone, but
the expressions are searched for in the target and in the text behind it
(`requestParser_ok_iff`). So two requests for one target are routed alike when no
route stands behind the targets that does not stand in them; and for a target in
the grammar a route that is added there makes the difference. -/
namespace Rinha.Server
open Library Http Request

/-- The result of `request_parser`, with uri, method and id. -/
def routing (buff : List UInt8) : Except ParserError (Uri × Method × Nat) :=
  (requestParser buff).map fun d => (d.uri, d.method, d.id)

/-- The C string behind the target and its space. -/
def behindTarget (buff : List UInt8) (r : Http.Request) : List UInt8 :=
  cstr (r.pathText.drop (r.path.length + 1) ++ buff.drop maxReqRespSize)

/-- Which of the expressions match in the target or in the text behind it. -/
def matched (buff : List UInt8) (r : Http.Request) : List Bool :=
  List.zipWith (· || ·) (hits r.path) (hits (behindTarget buff r))

/-- The id for a target that is routed to index `k`. -/
def idFor (path : List UInt8) (k : Nat) : Option Nat :=
  if k = 2 ∨ k = 3 then some uint64Max else scanId path

/-- The text that the expressions are searched for in. -/
def searched (buff : List UInt8) (r : Http.Request) : List UInt8 := r.path ++ 32 :: behindTarget buff r

/-- The method token begins with the method's name, the text is taken for the route and,
where that has a number, one stands behind `/clientes/` at the front of the target. -/
structure RoutedTo (r : Http.Request) (text : List UInt8) (m : Method) (u : Uri) : Prop where
  method : BeginsWith r.method m
  route : TakenFor text u
  number : u = .transacao ∨ u = .extrato → ∃ id, Numbered r.path id

/-- No route stands behind the target that does not stand in it. -/
def NothingAdded (buff : List UInt8) (r : Http.Request) : Prop := SameRoutes r.path (searched buff r)

/-- No expression matches in the text behind the target. -/
def NothingBehind (buff : List UInt8) (r : Http.Request) : Prop :=
  ∀ hit ∈ hits (behindTarget buff r), hit = false

/-! ### Method and id -/

theorem mapMethod_token {method : List UInt8} (rest : List UInt8) :
    mapMethod (method ++ 32 :: rest) = mapMethod method := by
  have hpre : ∀ name : List UInt8, 32 ∉ name → (name <+: method ++ 32 :: rest ↔ name <+: method) :=
    fun name hname => ⟨prefix_of_append_cons hname, fun h => h.trans (List.prefix_append _ _)⟩
  unfold mapMethod
  simp only [hpre (bytes "GET") (by decide), hpre (bytes "POST") (by decide)]

theorem isspace_printable {b : UInt8} (hb : 32 < b) : isspace b = false := by
  unfold isspace
  grind

theorem scanLu_printable {s : List UInt8} (hs : ∀ b ∈ s, 32 < b) : scanLu s = scanSigned s := by
  cases s with
  | nil => rfl
  | cons b s =>
    rw [scanLu, List.dropWhile_cons_of_neg]
    rw [isspace_printable (hs b (List.mem_cons_self ..))]
    decide

theorem dropWhile_spaces (k : Nat) (t : List UInt8) :
    (32 :: (List.replicate k 32 ++ 72 :: t)).dropWhile isspace = 72 :: t := by
  rw [← List.cons_append, ← List.replicate_succ]
  rw [List.dropWhile_append_of_pos]
  · rfl
  · intro b hb
    rw [List.eq_of_mem_replicate hb]
    decide

/-- The number is written in the target: the space behind it stops the digits. -/
theorem scanId_target {path : List UInt8} (hpath : ∀ b ∈ path, 32 < b) (k : Nat) (t : List UInt8) :
    scanId (path ++ 32 :: (List.replicate k 32 ++ 72 :: t)) = scanId path := by
  unfold scanId
  have hpre : bytes "/clientes/" <+: path ++ 32 :: (List.replicate k 32 ++ 72 :: t) ↔
      bytes "/clientes/" <+: path :=
    ⟨prefix_of_append_cons (by decide), fun h => h.trans (List.prefix_append _ _)⟩
  simp only [hpre]
  split
  · rename_i h
    obtain ⟨s, rfl⟩ := h
    rw [List.append_assoc, List.drop_left, List.drop_left]
    have hs : ∀ b ∈ s, 32 < b := fun b hb => hpath b (List.mem_append_right _ hb)
    cases s with
    | nil =>
      rw [List.nil_append, scanLu, dropWhile_spaces]
      rfl
    | cons b s =>
      have hb : isspace b = false := isspace_printable (hs b (List.mem_cons_self ..))
      rw [scanLu_printable hs, scanLu, List.cons_append, List.dropWhile_cons_of_neg (by rw [hb]; decide)]
      exact scanSigned_stop (by decide) s _
  · rfl

/-! ### The result of request_parser -/

theorem printable_ne_zero {path : List UInt8} (h : ∀ b ∈ path, 32 < b ∧ b ≠ 127) : ∀ b ∈ path, b ≠ 0 := by
  intro b hb hb0
  have := (h b hb).1
  rw [hb0] at this
  exact absurd this (by decide)

theorem cstr_replicate_space (k : Nat) (s : List UInt8) :
    cstr (List.replicate k 32 ++ s) = List.replicate k 32 ++ cstr s :=
  cstr_append (fun b hb => by rw [List.eq_of_mem_replicate hb]; decide) s

/-- The text that the expressions are searched for in, and the id read from. -/
theorem uri_eq {r : Http.Request} (h : Shape r) (buff : List UInt8) :
    cstr (r.pathText ++ buff.drop maxReqRespSize) = r.path ++ 32 :: behindTarget buff r ∧
      ∃ k t, behindTarget buff r = List.replicate k 32 ++ 72 :: t := by
  obtain ⟨k, t, hpath⟩ := h.path
  have hdrop : r.pathText.drop (r.path.length + 1) = List.replicate k 32 ++ 72 :: t := by
    rw [hpath, ← List.drop_drop, List.drop_left, List.drop_one, List.tail_cons]
  have hbehind : behindTarget buff r =
      List.replicate k 32 ++ 72 :: cstr (t ++ buff.drop maxReqRespSize) := by
    rw [behindTarget, hdrop, List.append_assoc, cstr_replicate_space, List.cons_append,
      cstr_cons (by decide)]
  refine ⟨?_, k, _, hbehind⟩
  rw [hpath, List.append_assoc, cstr_append (printable_ne_zero h.printable), List.cons_append,
    cstr_cons (by decide), List.append_assoc, cstr_replicate_space, List.cons_append,
    cstr_cons (by decide), hbehind]

theorem tokenCharMap_ne_zero {method : List UInt8} (h : ∀ b ∈ method, b ≠ 32 ∧ tokenCharMap b = true) :
    ∀ b ∈ method, b ≠ 0 := by
  intro b hb hb0
  have := (h b hb).2
  rw [hb0] at this
  exact absurd this (by decide)

theorem method_eq {r : Http.Request} (h : Shape r) (buff : List UInt8) :
    mapMethod (cstr (r.methodText ++ buff.drop maxReqRespSize)) = mapMethod r.method := by
  obtain ⟨t, hmethod⟩ := h.method
  rw [hmethod, List.append_assoc, cstr_append (tokenCharMap_ne_zero h.token), List.cons_append,
    cstr_cons (by decide), mapMethod_token]

theorem matchLoop_nonneg {hs : List Bool} {i : Int} (h : matchLoop (-1) 0 hs = .ok i) (hi : ¬ i < 0) :
    ∃ k : Nat, i = k ∧ Selects hs k := by
  obtain ⟨k, rfl⟩ := Int.eq_ofNat_of_zero_le (not_lt.mp hi)
  exact ⟨k, rfl, (matchLoop_iff hs k).mp h⟩

/-- `request_parser` accepts a request for the selected index, when its method is
known and its id can be read. -/
theorem requestParser_ok_iff {buff : List UInt8} {r : Http.Request} {n : Nat}
    (h : phrParseRequest (buff.take maxReqRespSize) 100 = .ok (r, n)) (d : RequestData) :
    requestParser buff = .ok d ↔
      ∃ m k id, mapMethod r.method = some m ∧ Selects (matched buff r) k ∧ idFor r.path k = some id ∧
        d = ⟨Uri.ofIndex k, m, n, id⟩ := by
  have hshape := phrParseRequest_shape h
  obtain ⟨huri, k, t, hbehind⟩ := uri_eq hshape buff
  have hid : scanId (r.path ++ 32 :: behindTarget buff r) = scanId r.path := by
    rw [hbehind]
    exact scanId_target (fun b hb => (hshape.printable b hb).1) k t
  unfold requestParser
  rw [h]
  simp only [method_eq hshape, huri, hits_append, hid]
  rw [← matched]
  cases hm : mapMethod r.method with
  | none => simp
  | some m =>
    simp only [Option.some.injEq, exists_and_left, exists_eq_left']
    cases hloop : matchLoop (-1) 0 (matched buff r) with
    | error e =>
      constructor
      · intro hd
        cases hd
      · rintro ⟨k, hk, _⟩
        rw [(matchLoop_iff _ k).mpr hk] at hloop
        cases hloop
    | ok i =>
      simp only
      by_cases hi : i < 0
      · rw [if_pos hi]
        constructor
        · intro hd
          cases hd
        · rintro ⟨k, hk, _⟩
          rw [(matchLoop_iff _ k).mpr hk] at hloop
          cases hloop
          omega
      · rw [if_neg hi]
        obtain ⟨k, rfl, hk⟩ := matchLoop_nonneg hloop hi
        have hcast : ((k : Int) = 2 ∨ (k : Int) = 3) ↔ (k = 2 ∨ k = 3) := by omega
        simp only [hcast]
        have hsel : ∀ {j : Nat}, Selects (matched buff r) j → j = k := fun hj => hj.unique hk
        by_cases hk23 : k = 2 ∨ k = 3
        · rw [if_pos hk23]
          constructor
          · intro hd
            cases hd
            exact ⟨k, hk, uint64Max, if_pos hk23, rfl⟩
          · rintro ⟨j, hj, id, hidj, rfl⟩
            obtain rfl := hsel hj
            rw [idFor, if_pos hk23] at hidj
            cases hidj
            rfl
        · rw [if_neg hk23]
          constructor
          · intro hd
            split at hd
            · cases hd
            · rename_i id hscan
              cases hd
              exact ⟨k, hk, id, by rw [idFor, if_neg hk23, hscan], rfl⟩
          · rintro ⟨j, hj, id, hidj, rfl⟩
            obtain rfl := hsel hj
            rw [idFor, if_neg hk23] at hidj
            rw [hidj]

/-- No pattern fails to compile, so the parser's one failure is `PARSER_INVALID`. -/
theorem requestParser_error {buff : List UInt8} {e : ParserError} (h : requestParser buff = .error e) :
    e = .invalid := by
  have hloop : ∀ (hs : List Bool) (m : Int) (i : Nat) (e : ParserError),
      matchLoop m i hs = .error e → e = .invalid := by
    intro hs
    induction hs with
    | nil => intro m i e h; cases h
    | cons hit rest ih =>
      intro m i e h
      rw [matchLoop] at h
      split at h
      · split at h
        · cases h; rfl
        · exact ih _ _ _ h
      · exact ih _ _ _ h
  unfold requestParser at h
  split at h
  · cases h; rfl
  · simp only at h
    split at h
    · cases h; rfl
    · split at h
      · cases h
        exact hloop _ _ _ _ ‹_›
      · split at h
        · cases h; rfl
        · split at h
          · cases h
          · split at h
            · cases h; rfl
            · cases h

/-! ### Two requests for one target -/

theorem matched_length (buff : List UInt8) (r : Http.Request) : (matched buff r).length = 4 := by
  rw [matched, List.length_zipWith, hits, hits, List.length_map, List.length_map]
  rfl

theorem selects_lt {buff : List UInt8} {r : Http.Request} {k : Nat} (h : Selects (matched buff r) k) :
    k < 4 := by
  obtain ⟨hlt, _⟩ := List.getElem?_eq_some_iff.mp h.1
  rw [matched_length] at hlt
  exact hlt

theorem routing_ok_iff {buff : List UInt8} {r : Http.Request} {n : Nat}
    (h : phrParseRequest (buff.take maxReqRespSize) 100 = .ok (r, n)) (u : Uri) (m : Method) (id : Nat) :
    routing buff = .ok (u, m, id) ↔
      ∃ k, mapMethod r.method = some m ∧ Selects (matched buff r) k ∧ idFor r.path k = some id ∧
        u = Uri.ofIndex k := by
  have hparser : routing buff = .ok (u, m, id) ↔ requestParser buff = .ok ⟨u, m, n, id⟩ := by
    unfold routing
    cases hp : requestParser buff with
    | error e => simp [Except.map]
    | ok d =>
      obtain ⟨_, _, _, _, _, _, _, rfl⟩ := (requestParser_ok_iff h d).mp hp
      simp [Except.map]
  rw [hparser, requestParser_ok_iff h]
  constructor
  · rintro ⟨m', k, id', hm, hk, hid, hd⟩
    cases hd
    exact ⟨k, hm, hk, hid, rfl⟩
  · rintro ⟨k, hm, hk, hid, rfl⟩
    exact ⟨m, k, id, hm, hk, hid, rfl⟩

/-- What is refused in one way is known by what is accepted. -/
theorem eq_of_ok_iff {α : Type*} {x y : Except ParserError α} (hx : ∀ e, x = .error e → e = .invalid)
    (hy : ∀ e, y = .error e → e = .invalid) (h : ∀ a, x = .ok a ↔ y = .ok a) : x = y := by
  cases x with
  | ok a => exact ((h a).mp rfl).symm
  | error e =>
    cases y with
    | ok a => exact (h a).mpr rfl
    | error e' => rw [hx e rfl, hy e' rfl]

theorem routing_error {b : List UInt8} {e : ParserError} (h : routing b = .error e) : e = .invalid := by
  unfold routing at h
  cases hp : requestParser b with
  | error e' =>
    rw [hp] at h
    cases h
    exact requestParser_error hp
  | ok d =>
    rw [hp] at h
    cases h

/-- `controller` sets `to_exit` for a request for `/exit`. -/
theorem controller_toExit_uri {κ : Type*} {reqres : ReqRes κ} (h0 : reqres.toExit = false) :
    (controller reqres).toExit = true ↔ ∃ d, requestParser reqres.buffer = .ok d ∧ d.uri = .exit := by
  unfold controller
  cases hp : requestParser reqres.buffer with
  | error e => cases e <;> simp [ReqRes.setStaticResponse, h0]
  | ok d =>
    simp only [Except.ok.injEq, exists_eq_left']
    split
    · simp [*]
    · split
      · simp [*, ReqRes.setStaticResponse]
      · split
        · simp [*, ReqRes.setStaticResponse]
        · split
          · simp [*, ReqRes.setStaticResponse]
          · split
            · simp [*]
            · split <;> simp [*, ReqRes.setStaticResponse]

/-- `controller` sets `to_exit` when `/exit` is selected. -/
theorem controller_toExit {κ : Type*} {buff : List UInt8} {r : Http.Request} {n : Nat}
    (h : phrParseRequest (buff.take maxReqRespSize) 100 = .ok (r, n)) {reqres : ReqRes κ}
    (hbuffer : reqres.buffer = buff) (h0 : reqres.toExit = false) :
    (controller reqres).toExit = true ↔ (mapMethod r.method).isSome ∧ Selects (matched buff r) 2 := by
  rw [controller_toExit_uri h0, hbuffer]
  constructor
  · rintro ⟨d, hd, hexit⟩
    obtain ⟨m, k, id, hm, hk, _, rfl⟩ := (requestParser_ok_iff h d).mp hd
    obtain rfl : k = 2 := ofIndex_inj (selects_lt hk) (by decide) hexit
    exact ⟨by rw [hm]; rfl, hk⟩
  · rintro ⟨hm, hk⟩
    obtain ⟨m, hm⟩ := Option.isSome_iff_exists.mp hm
    exact ⟨_, (requestParser_ok_iff h _).mpr ⟨m, 2, uint64Max, hm, hk, rfl, rfl⟩, rfl⟩

/-! ### What stands behind the target -/

theorem matched_eq (buff : List UInt8) (r : Http.Request) : matched buff r = hits (searched buff r) :=
  (hits_append r.path (behindTarget buff r)).symm

theorem path_infix_searched (buff : List UInt8) (r : Http.Request) : r.path <:+: searched buff r :=
  (List.prefix_append _ _).isInfix

/-- The index is that of the route that the text is taken for. -/
theorem selects_matched {buff : List UInt8} {r : Http.Request} {k : Nat} :
    Selects (matched buff r) k ↔ k < 4 ∧ TakenFor (searched buff r) (Uri.ofIndex k) := by
  rw [matched_eq, selects_iff]

theorem idFor_isSome {path : List UInt8} {k : Nat} (hk : k < 4) :
    (∃ id, idFor path k = some id) ↔
      (Uri.ofIndex k = .transacao ∨ Uri.ofIndex k = .extrato → ∃ n, Numbered path n) := by
  have hnumbered : (∃ id, scanId path = some id) ↔ ∃ n, Numbered path n := exists_congr fun _ => scanId_iff
  have hfirst : (Uri.ofIndex k = .transacao ∨ Uri.ofIndex k = .extrato) ↔ ¬ (k = 2 ∨ k = 3) := by
    have hall : ∀ k < 4, (Uri.ofIndex (k : Nat) = .transacao ∨ Uri.ofIndex (k : Nat) = .extrato) ↔
        ¬ (k = 2 ∨ k = 3) := by decide
    exact hall k hk
  rw [hfirst, ← hnumbered, idFor]
  by_cases h23 : k = 2 ∨ k = 3
  · simp [h23]
  · simp [h23]

/-- What the parser accepts, in terms of the method token and the text from the target on. -/
theorem requestParser_routedTo {buff : List UInt8} {r : Http.Request} {n : Nat}
    (h : phrParseRequest (buff.take maxReqRespSize) 100 = .ok (r, n)) (m : Method) (u : Uri) :
    (∃ d, requestParser buff = .ok d ∧ d.method = m ∧ d.uri = u) ↔ RoutedTo r (searched buff r) m u := by
  constructor
  · intro hok
    obtain ⟨d, hd, rfl, rfl⟩ := hok
    obtain ⟨m, k, id, hm, hk, hid, rfl⟩ := (requestParser_ok_iff h d).mp hd
    obtain ⟨hlt, htaken⟩ := selects_matched.mp hk
    exact ⟨mapMethod_iff.mp hm, htaken, (idFor_isSome hlt).mp ⟨id, hid⟩⟩
  · intro hrouted
    obtain ⟨k, hk, rfl⟩ := exists_index u
    obtain ⟨id, hid⟩ := (idFor_isSome hk).mpr hrouted.number
    exact ⟨_, (requestParser_ok_iff h _).mpr ⟨m, k, id, mapMethod_iff.mpr hrouted.method,
      selects_matched.mpr ⟨hk, hrouted.route⟩, hid, rfl⟩, rfl, rfl⟩

/-- Where nothing is added, it is the target's own. -/
theorem NothingAdded.selects {buff : List UInt8} {r : Http.Request} (h : NothingAdded buff r) (k : Nat) :
    Selects (matched buff r) k ↔ Selects (hits r.path) k := by
  rw [selects_matched, selects_iff, h.takenFor (path_infix_searched buff r)]

theorem contains_searched {buff : List UInt8} {r : Http.Request} (h : NothingBehind buff r) (u : Uri) :
    Contains (searched buff r) u ↔ Contains r.path u := by
  rw [searched, contains_append, or_iff_left]
  intro hbehind
  obtain ⟨k, hk, rfl⟩ := exists_index u
  exact absurd (h true (List.mem_of_getElem? ((hits_iff hk).mpr hbehind))) (by decide)

theorem NothingBehind.nothingAdded {buff : List UInt8} {r : Http.Request} (h : NothingBehind buff r) :
    NothingAdded buff r := fun u hu => .inl ((contains_searched h u).mp hu)

/-- No expression matches where there is no ending. -/
theorem nothingBehind_of_endings {buff : List UInt8} {r : Http.Request}
    (h : ∀ s ∈ endings, ¬ bytes s <:+: (behindTarget buff r).map lower) : NothingBehind buff r := by
  intro hit hmem
  obtain ⟨k, hk⟩ := List.mem_iff_getElem?.mp hmem
  cases hit with
  | false => rfl
  | true =>
    obtain ⟨s, hs, hinfix⟩ := hits_ending hk
    exact absurd hinfix (h s (List.mem_of_getElem? hs))

/-- The id of a target in the grammar, where small letters stand before a number. -/
theorem idFor_route {path : List UInt8} {u : Uri} {id : Nat} (hroute : Route path u id)
    (hsmall : u = .exit ∨ u = .ping ∨ bytes "/clientes/" <+: path) :
    ∃ (k : Nat) (id' : Nat), u = Uri.ofIndex k ∧ Selects (hits path) k ∧ idFor path k = some id' ∧
      (u = .transacao ∨ u = .extrato → id' = id) := by
  obtain ⟨k, rfl, hk, hid⟩ := hroute.selects
  refine ⟨k, ?_⟩
  by_cases h23 : k = 2 ∨ k = 3
  · refine ⟨uint64Max, rfl, hk, if_pos h23, fun hu => ?_⟩
    rcases h23 with rfl | rfl <;> rcases hu with hu | hu <;> cases hu
  · have hpre : bytes "/clientes/" <+: path := by
      refine (hsmall.resolve_left fun heq => h23 (.inl ?_)).resolve_left fun heq => h23 (.inr ?_)
      · exact ofIndex_inj (hits_lt hk.1) (by decide) heq
      · exact ofIndex_inj (hits_lt hk.1) (by decide) heq
    rw [not_or] at h23
    have hscan := (hid.resolve_left h23.1).resolve_left h23.2
    rw [if_pos hpre] at hscan
    exact ⟨id, rfl, hk, by rw [idFor, if_neg (not_or.mpr h23), hscan], fun _ => rfl⟩

/-- The target of a request that makes the server exit is `/exit`. -/
def ExitsByTarget (buff : List UInt8) (r : Http.Request) : Prop :=
  ∀ reqres : ReqRes Unit, reqres.buffer = buff → reqres.toExit = false →
    (controller reqres).toExit = true → ∃ id, Route r.path .exit id

/-- The routing of two requests is the same, and each makes the server exit by its
target alone. -/
def RoutedByTarget (b b' : List UInt8) (r r' : Http.Request) : Prop :=
  routing b = routing b' ∧ ExitsByTarget b r ∧ ExitsByTarget b' r'

/-- A target in which `/exit` stands is nothing else, unless an extrato's route or
`/ping` stands in it too. -/
def ExitWhole (target : List UInt8) : Prop :=
  Contains target .exit → (∃ id, Route target .exit id) ∨ Contains target .extrato ∨ Contains target .ping

theorem NothingAdded.exitsByTarget {buff : List UInt8} {r : Http.Request} {n : Nat}
    (h : phrParseRequest (buff.take maxReqRespSize) 100 = .ok (r, n)) (hadded : NothingAdded buff r)
    (hwhole : ExitWhole r.path) : ExitsByTarget buff r := by
  intro reqres hbuffer h0 hexit
  obtain ⟨_, hk⟩ := (controller_toExit h hbuffer h0).mp hexit
  obtain ⟨_, htaken⟩ := selects_iff.mp ((hadded.selects 2).mp hk)
  rcases hwhole htaken.stands with hroute | hextrato | hping
  · exact hroute
  · exact absurd hextrato (htaken.alone .extrato (by decide) (by decide))
  · exact absurd hping (htaken.alone .ping (by decide) (by decide))

/-- Two requests with one method and one target are routed by these when nothing behind
the targets adds a route, and `/exit` stands in no longer target. And for a target in the
grammar nothing is added in the one request, if it is routed as the other, in which
nothing is. -/
theorem routedByTarget_of_nothingAdded {b b' : List UInt8} {r r' : Http.Request} {n n' : Nat}
    (h : phrParseRequest (b.take maxReqRespSize) 100 = .ok (r, n))
    (h' : phrParseRequest (b'.take maxReqRespSize) 100 = .ok (r', n'))
    (hmethod : r.method = r'.method) (hpath : r.path = r'.path) :
    (NothingAdded b r → NothingAdded b' r' → ExitWhole r.path → RoutedByTarget b b' r r') ∧
      ∀ m u id, Named r.method m → Route r.path u id →
        (u = .exit ∨ u = .ping ∨ bytes "/clientes/" <+: r.path) →
          NothingAdded b' r' → RoutedByTarget b b' r r' → NothingAdded b r := by
  constructor
  · intro hadded hadded' hwhole
    refine ⟨eq_of_ok_iff (fun _ => routing_error) (fun _ => routing_error) fun d => ?_,
      hadded.exitsByTarget h hwhole, hadded'.exitsByTarget h' (hpath ▸ hwhole)⟩
    obtain ⟨u, m, id⟩ := d
    rw [routing_ok_iff h, routing_ok_iff h', ← hmethod, ← hpath]
    simp only [hadded.selects, hadded'.selects, hpath]
  · intro m u id hm hroute hsmall hadded' hrouted v hv
    obtain ⟨k, id', rfl, hk, hid', _⟩ := idFor_route hroute hsmall
    have hother : routing b' = .ok (Uri.ofIndex k, m, id') := by
      refine (routing_ok_iff h' _ _ _).mpr ⟨k, hmethod ▸ hm.mapMethod, ?_, hpath ▸ hid', rfl⟩
      exact (hadded'.selects k).mpr (hpath ▸ hk)
    -- The route that is selected for the one is the target's own, so another that stands
    -- behind that target can only be the one of the transactions.
    obtain ⟨j, _, hj, _, hjk⟩ := (routing_ok_iff h _ _ _).mp (hrouted.1.trans hother)
    obtain rfl := ofIndex_inj (hits_lt hk.1) (selects_lt hj) hjk
    have htaken := (selects_matched.mp hj).2
    have hstands := (selects_iff.mp hk).2.stands
    by_cases hvk : v = Uri.ofIndex k
    · exact .inl (hvk ▸ hstands)
    · by_cases htransacao : v = .transacao
      · exact .inr ⟨htransacao, _, hstands⟩
      · exact absurd hv (htaken.alone v htransacao hvk)

/-! ### A request that was read into an empty buffer -/

/-- A slot's buffer, all zero before, with the bytes of a request. -/
def received (text : List UInt8) : List UInt8 := memcpy (List.replicate (maxReqRespSize + 1) 0) text

theorem received_split {text : List UInt8} (h : text.length ≤ maxReqRespSize) :
    (received text).take maxReqRespSize = text ++ List.replicate (maxReqRespSize - text.length) 0 ∧
      (received text).drop maxReqRespSize = [0] := by
  have hsub : maxReqRespSize + 1 - text.length = (maxReqRespSize - text.length) + 1 := by omega
  unfold received memcpy
  rw [List.drop_replicate, List.take_append, List.drop_append, List.take_of_length_le h,
    List.drop_of_length_le h, List.take_replicate, List.drop_replicate, hsub,
    Nat.min_eq_left (Nat.le_succ _), Nat.add_sub_cancel_left]
  exact ⟨rfl, rfl⟩

/-- It is parsed as its bytes are, and the text from the target on ends where they end. -/
theorem searched_received {text : List UInt8} {r : Http.Request} {n : Nat} (hlen : text.length ≤ maxReqRespSize)
    (h : phrParseRequest text 100 = .ok (r, n)) :
    ∃ r', phrParseRequest ((received text).take maxReqRespSize) 100 = .ok (r', n) ∧
      r'.method = r.method ∧ r'.path = r.path ∧ searched (received text) r' = cstr r.pathText := by
  obtain ⟨htake, hdrop⟩ := received_split hlen
  have hparse := phrParseRequest_append (List.replicate (maxReqRespSize - text.length) 0) h
  rw [← htake] at hparse
  refine ⟨_, hparse, rfl, rfl, ?_⟩
  obtain ⟨huri, _⟩ := uri_eq (phrParseRequest_shape hparse) (received text)
  rw [searched, ← huri, hdrop, List.append_assoc, ← List.replicate_succ', List.replicate_succ, cstr_append_nul]

theorem parse_received {text : List UInt8} {r : Http.Request} {n : Nat} (hlen : text.length ≤ maxReqRespSize)
    (h : phrParseRequest text 100 = .ok (r, n)) (htext : ∀ b ∈ r.pathText, b ≠ 0) :
    ∃ r', phrParseRequest ((received text).take maxReqRespSize) 100 = .ok (r', n) ∧
      r'.method = r.method ∧ r'.path = r.path ∧
        behindTarget (received text) r' = r.pathText.drop (r.path.length + 1) := by
  obtain ⟨r', hr, hmethod, hpath, hsearched⟩ := searched_received hlen h
  refine ⟨r', hr, hmethod, hpath, ?_⟩
  rw [cstr_eq_self fun h0 => htext 0 h0 rfl] at hsearched
  rw [← hsearched, ← hpath, searched, ← List.drop_drop, List.drop_left, List.drop_one, List.tail_cons]

/-- Two transactions of client 1, with the descriptions "/exit" and "a". -/
def exitPost : List UInt8 := bytes
  "POST /clientes/1/transacoes HTTP/1.1\r\n\r\n\x7b\"valor\":1,\"tipo\":\"c\",\"descricao\":\"/exit\"\x7d"

def plainPost : List UInt8 := bytes
  "POST /clientes/1/transacoes HTTP/1.1\r\n\r\n\x7b\"valor\":1,\"tipo\":\"c\",\"descricao\":\"a\"\x7d"

def parsedPost (text : List UInt8) : Http.Request where
  method := bytes "POST"
  methodText := text
  path := bytes "/clientes/1/transacoes"
  pathText := text.drop 5
  minorVersion := 1
  body := text.drop 40

theorem exitPost_parsed : phrParseRequest exitPost 100 = .ok (parsedPost exitPost, 40) := by
  decide +kernel

theorem plainPost_parsed : phrParseRequest plainPost 100 = .ok (parsedPost plainPost, 40) := by
  decide +kernel

/-- And one of another amount, kind and description. -/
def debitPost : List UInt8 := bytes
  "POST /clientes/1/transacoes HTTP/1.1\r\n\r\n\x7b\"valor\":20,\"tipo\":\"d\",\"descricao\":\"ping\"\x7d"

theorem debitPost_parsed : phrParseRequest debitPost 100 = .ok (parsedPost debitPost, 40) := by
  decide +kernel

/-- The first of them makes the server exit, and the other does not. -/
theorem descricao_exits :
    ∃ r r' n n', phrParseRequest ((received exitPost).take maxReqRespSize) 100 = .ok (r, n) ∧
      phrParseRequest ((received plainPost).take maxReqRespSize) 100 = .ok (r', n') ∧
      r.method = r'.method ∧ r.path = r'.path ∧
      ¬ RoutedByTarget (received exitPost) (received plainPost) r r' ∧
      (controller {(ReqRes.zero : ReqRes Unit) with buffer := received exitPost}).toExit = true := by
  obtain ⟨r, hr, hmethod, hpath, hbehind⟩ :=
    parse_received (by decide +kernel) exitPost_parsed (by decide +kernel)
  obtain ⟨r', hr', hmethod', hpath', _⟩ :=
    parse_received (by decide +kernel) plainPost_parsed (by decide +kernel)
  have hselects : Selects (matched (received exitPost) r) 2 := by
    rw [matched, hbehind, hpath, hits_splitOnP, hits_splitOnP]
    decide +kernel
  have hexit : (controller {(ReqRes.zero : ReqRes Unit) with buffer := received exitPost}).toExit = true := by
    refine (controller_toExit hr rfl rfl).mpr ⟨?_, hselects⟩
    rw [hmethod]
    decide
  refine ⟨r, r', 40, 40, hr, hr', by rw [hmethod, hmethod']; rfl, by rw [hpath, hpath']; rfl, ?_, hexit⟩
  intro h
  obtain ⟨id, hroute⟩ := h.2.1 _ rfl rfl hexit
  rw [hpath] at hroute
  cases hroute with
  | exit _ htarget => exact absurd htarget (by decide +kernel)

/-- Two others, of one target and with different bodies, are routed alike. -/
theorem routedByTarget_posts :
    ∃ r r' n n', phrParseRequest ((received plainPost).take maxReqRespSize) 100 = .ok (r, n) ∧
      phrParseRequest ((received debitPost).take maxReqRespSize) 100 = .ok (r', n') ∧
      RoutedByTarget (received plainPost) (received debitPost) r r' := by
  have hnothing : ∀ {text r'}, behindTarget (received text) r' = (text.drop 5).drop 23 →
      (∀ s ∈ endings, ¬ bytes s <:+: ((text.drop 5).drop 23).map lower) → NothingAdded (received text) r' :=
    fun hbehind hno => (nothingBehind_of_endings (by rwa [hbehind])).nothingAdded
  obtain ⟨r, hr, hmethod, hpath, hbehind⟩ :=
    parse_received (by decide +kernel) plainPost_parsed (by decide +kernel)
  obtain ⟨r', hr', hmethod', hpath', hbehind'⟩ :=
    parse_received (by decide +kernel) debitPost_parsed (by decide +kernel)
  refine ⟨r, r', 40, 40, hr, hr', (routedByTarget_of_nothingAdded hr hr' ?_ ?_).1 ?_ ?_ ?_⟩
  · rw [hmethod, hmethod']
    rfl
  · rw [hpath, hpath']
    rfl
  · exact hnothing hbehind (by decide +kernel)
  · exact hnothing hbehind' (by decide +kernel)
  · intro hexit
    have hno : (hits (bytes "/clientes/1/transacoes"))[2]? = some false := by decide +kernel
    rw [hpath] at hexit
    cases hno.symm.trans ((hits_iff (k := 2) (by decide)).mpr hexit)

end Rinha.Server
