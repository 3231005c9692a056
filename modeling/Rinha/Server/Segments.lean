import Rinha.Server.Errands
import Rinha.Server.Requests
import Rinha.Server.Residue
import Rinha.Server.Validation

/-! Whether it matters how a request is cut into segments.

The server reads a connection once and answers what the first read has brought
(`readOnce`). A head that is cut is refused, so the response is the same only for a
request that is refused in whole. Behind the head a cut can matter in two ways: the
expressions are searched for in the body too, and a transaction is parsed from it; an
object that ends before the cut is parsed alike (`parseWithOpts_iff`). -/
namespace Rinha.Server
open Library Http Request Client Json

/-- The buffer that `controller` is given: `server_loop` has one read for a connection,
and looks at no byte count. -/
def readOnce : List (List UInt8) → List UInt8
  | [] => received []
  | segment :: _ => received segment

/-- The same is sent and answered as when the whole text comes at once. -/
def SegmentationIndependent (text : List UInt8) (segments : List (List UInt8)) : Prop :=
  SameOutcome (readOnce segments) (readOnce [text])

/-- The text from the target up to the cut. -/
def upToCut (text first : List UInt8) (r : Http.Request) : List UInt8 :=
  r.pathText.take (r.pathText.length + first.length - text.length)

/-- What is behind the cut does not matter. -/
structure CutHarmless (text first : List UInt8) (r : Http.Request) (n : Nat) : Prop where
  /-- Where the cut is in the head, of `n` bytes, the request is for no route. -/
  head : first.length < n → ∀ m u, ¬ RoutedTo r (cstr r.pathText) m u
  /-- Behind the head, no route stands in the part behind the cut that does not stand before it. -/
  routes : n ≤ first.length → SameRoutes (cstr (upToCut text first r)) (cstr r.pathText)
  /-- And an object at the front of a transaction's body ends before the cut. -/
  body : n ≤ first.length → RoutedTo r (cstr r.pathText) .post .transacao → ∀ object child,
    LooseDocument object child → object <+: cstr (text.drop n) → object <+: cstr (first.drop n)

/-! ### One read -/

/-- In every run one request is received from a connection, and `controller` is given the
bytes of the read that has completed, whatever segments are still to come. -/
theorem controlled_readOnce {P N : Nat} {s t : State P N} {inputs : List Input} {c : Completion}
    {r : ReqRes (Fin N)} (hs : (State.start : Except Stop (State P N)) = .ok s)
    (ht : run State.step s inputs = .ok t) (hr : t.controlled c = some r) (later : List (List UInt8)) :
    OneRequest t ∧ ∃ fd, r = controller
      {ReqRes.zero with
        ring := true
        lastEvent := .reading
        clientFd := fd
        buffer := readOnce (c.data :: later)} := by
  have hcons : Consistent t [] := (throughout_of_all (I := fun s => Consistent s [])
    (fun _ _ _ => consistent_step) (consistent_start hs) inputs).last ht
  exact ⟨(oneRequest hs inputs).last ht, controlled_eq hcons hr⟩

/-! ### The head -/

section Cut
variable {text first : List UInt8} {r : Http.Request} {n : Nat}

theorem received_cut (hlen : text.length ≤ maxReqRespSize) (h : phrParseRequest text 100 = .ok (r, n))
    (hfirst : first <+: text) (hcut : first.length < n) : requestParser (received first) = .error .invalid := by
  have hn := (phrParseRequest_takes h).1
  obtain ⟨e, he⟩ := phrParseRequest_cut h hfirst hcut (k := maxReqRespSize - first.length) (by omega)
  unfold requestParser
  rw [(received_split (hfirst.length_le.trans hlen)).1, he]

/-- Behind the head, a part of the request is parsed as the whole, with less text behind
the target. -/
theorem parse_cut (h : phrParseRequest text 100 = .ok (r, n)) (hfirst : first <+: text) (hcut : n ≤ first.length) :
    ∃ r', phrParseRequest first 100 = .ok (r', n) ∧ r'.method = r.method ∧ r'.path = r.path ∧
      r'.pathText = upToCut text first r := by
  obtain ⟨_, hbody, methodUsed, pathUsed, _, hpath, _, _, hends⟩ := phrParseRequest_takes h
  obtain ⟨later, rfl⟩ := hfirst
  have hparse := hends (first.drop n)
  simp only [List.take_append_of_le_length hcut, List.take_append_drop] at hparse
  refine ⟨_, hparse, rfl, rfl, ?_⟩
  have hwhole : r.pathText = (pathUsed ++ first.drop n) ++ later := by
    rw [hpath, hbody, List.drop_append_of_le_length hcut, List.append_assoc]
  have hlength : (pathUsed ++ first.drop n ++ later).length + first.length - (first ++ later).length =
      (pathUsed ++ first.drop n).length := by
    simp only [List.length_append]
    omega
  unfold upToCut
  rw [hwhole, hlength, List.take_left]

/-- It is routed alike where the rest names no other route. -/
theorem requestParser_cut (hlen : text.length ≤ maxReqRespSize) (h : phrParseRequest text 100 = .ok (r, n))
    (hfirst : first <+: text) (hcut : n ≤ first.length)
    (hroutes : SameRoutes (cstr (upToCut text first r)) (cstr r.pathText)) :
    requestParser (received first) = requestParser (received text) := by
  obtain ⟨r₁, hr₁, hmethod₁, hpath₁, hpathText⟩ := parse_cut h hfirst hcut
  obtain ⟨r₁', hr₁', hmethod₁', hpath₁', hsearched₁⟩ := searched_received (hfirst.length_le.trans hlen) hr₁
  obtain ⟨r', hr', hmethod', hpath', hsearched'⟩ := searched_received hlen h
  have hinfix : cstr (upToCut text first r) <:+: cstr r.pathText := (cstr_prefix_cstr (List.take_prefix _ _)).isInfix
  refine eq_of_ok_iff (fun _ => requestParser_error) (fun _ => requestParser_error) fun d => ?_
  rw [requestParser_ok_iff hr₁', requestParser_ok_iff hr', hmethod₁', hmethod₁, hpath₁', hpath₁, hmethod', hpath']
  simp only [selects_matched, hsearched₁, hsearched', hpathText, hroutes.takenFor hinfix]

/-- The whole is refused when it is for no route. -/
theorem requestParser_refused (hlen : text.length ≤ maxReqRespSize) (h : phrParseRequest text 100 = .ok (r, n)) :
    requestParser (received text) = .error .invalid ↔ ∀ m u, ¬ RoutedTo r (cstr r.pathText) m u := by
  obtain ⟨r', hr', hmethod', hpath', hsearched'⟩ := searched_received hlen h
  have hrouted : ∀ m u, RoutedTo r' (searched (received text) r') m u ↔ RoutedTo r (cstr r.pathText) m u := by
    intro m u
    rw [hsearched']
    exact ⟨fun h => ⟨hmethod' ▸ h.method, h.route, hpath' ▸ h.number⟩,
      fun h => ⟨hmethod' ▸ h.method, h.route, hpath' ▸ h.number⟩⟩
  constructor
  · intro hrefused m u hto
    obtain ⟨d, hd, _⟩ := (requestParser_routedTo hr' m u).mpr ((hrouted m u).mpr hto)
    rw [hrefused] at hd
    cases hd
  · intro hno
    cases hp : requestParser (received text) with
    | error e => rw [requestParser_error hp]
    | ok d => exact absurd ((hrouted _ _).mp ((requestParser_routedTo hr' _ _).mp ⟨d, hp, rfl, rfl⟩)) (hno _ _)

/-! ### The body -/

theorem received_drop (hlen : first.length ≤ maxReqRespSize) (hn : n ≤ first.length) :
    cstr ((received first).drop n) = cstr (first.drop n) := by
  obtain ⟨k, hk⟩ : ∃ k, maxReqRespSize + 1 - first.length = k + 1 := ⟨maxReqRespSize - first.length, by omega⟩
  unfold received memcpy
  rw [List.drop_append_of_le_length hn, List.drop_replicate, hk, List.replicate_succ, cstr_append_nul]

/-- The parser looks at the body's value alone. -/
theorem parseTransacoes_congr {b b' : List UInt8} {d : RequestData}
    (h : cJSONParse (cstr (b.drop d.bodyLoc)) = cJSONParse (cstr (b'.drop d.bodyLoc))) :
    parseTransacoes b d = parseTransacoes b' d := by
  unfold parseTransacoes
  rw [h]

/-- What is accepted is an object. -/
theorem parseTransacoes_object {b : List UInt8} {d : RequestData} {t : Transacao}
    (h : parseTransacoes b d = .ok t) :
    ∃ child rest, parseWithOpts (cstr (b.drop d.bodyLoc)) = some (.object child, rest) := by
  obtain ⟨json, hjson, hvalor, _⟩ := parseTransacoes_ok h
  rw [cJSONParse_eq, Option.map_eq_some_iff] at hjson
  obtain ⟨⟨json', rest⟩, hparse, rfl⟩ := hjson
  cases json' with
  | object child => exact ⟨child, rest, hparse⟩
  | _ => cases hvalor

/-- Behind the head, an object that ends before the cut is the body's value. -/
theorem parseTransacoes_cut (hlen : text.length ≤ maxReqRespSize) (hfirst : first <+: text)
    {d : RequestData} (hn : d.bodyLoc ≤ first.length)
    (hobject : ∃ child rest, parseWithOpts (cstr (first.drop d.bodyLoc)) = some (.object child, rest)) :
    parseTransacoes (received first) d = parseTransacoes (received text) d := by
  obtain ⟨child, rest, hparse⟩ := hobject
  obtain ⟨u, hu⟩ : cstr (first.drop d.bodyLoc) <+: cstr (text.drop d.bodyLoc) :=
    cstr_prefix_cstr (hfirst.drop d.bodyLoc)
  refine parseTransacoes_congr ?_
  rw [received_drop (hfirst.length_le.trans hlen) hn, received_drop hlen (hn.trans hfirst.length_le), ← hu,
    cJSONParse_eq, cJSONParse_eq, hparse, parseWithOpts_append u hparse]
  rfl

/-- Without an object in front no transaction is found in the body. -/
theorem parseTransacoes_none {b : List UInt8} {d : RequestData}
    (h : ∀ child rest, parseWithOpts (cstr (b.drop d.bodyLoc)) ≠ some (.object child, rest)) :
    parseTransacoes b d = .error .invalid := by
  cases ht : parseTransacoes b d with
  | error e => rw [parseTransacoes_error ht]
  | ok t =>
    obtain ⟨child, rest, hparse⟩ := parseTransacoes_object ht
    exact absurd hparse (h child rest)

/-- A transaction is parsed alike when its object ends before the cut, or there is none. -/
theorem parseTransacoes_same (hlen : text.length ≤ maxReqRespSize) (hfirst : first <+: text) {d : RequestData}
    (hn : d.bodyLoc ≤ first.length)
    (hbody : ∀ object child, LooseDocument object child → object <+: cstr (text.drop d.bodyLoc) →
      object <+: cstr (first.drop d.bodyLoc)) :
    parseTransacoes (received first) d = parseTransacoes (received text) d := by
  by_cases hobject : ∃ child rest, parseWithOpts (cstr (text.drop d.bodyLoc)) = some (.object child, rest)
  · obtain ⟨child, rest, hparse⟩ := hobject
    obtain ⟨object, htext, hloose⟩ := parseWithOpts_iff.mp hparse
    obtain ⟨rest', hrest⟩ := hbody object child hloose ⟨rest, htext.symm⟩
    exact parseTransacoes_cut hlen hfirst hn ⟨child, rest', parseWithOpts_iff.mpr ⟨object, hrest.symm, hloose⟩⟩
  · have hnone : ∀ child rest, parseWithOpts (cstr (text.drop d.bodyLoc)) ≠ some (.object child, rest) :=
      fun child rest hparse => hobject ⟨child, rest, hparse⟩
    have hnone' : ∀ child rest, parseWithOpts (cstr (first.drop d.bodyLoc)) ≠ some (.object child, rest) := by
      intro child rest hparse
      -- An object before the cut would be one in front of the whole body.
      obtain ⟨u, hu⟩ : cstr (first.drop d.bodyLoc) <+: cstr (text.drop d.bodyLoc) :=
        cstr_prefix_cstr (hfirst.drop d.bodyLoc)
      exact hnone child (rest ++ u) (hu ▸ parseWithOpts_append u hparse)
    rw [← received_drop hlen (hn.trans hfirst.length_le)] at hnone
    rw [← received_drop (hfirst.length_le.trans hlen) hn] at hnone'
    rw [parseTransacoes_none hnone, parseTransacoes_none hnone']

/-- Cut in the head, the plan is the same only for a request that is refused. -/
theorem refused_of_planOf (hlen : text.length ≤ maxReqRespSize) (h : phrParseRequest text 100 = .ok (r, n))
    (hfirst : first <+: text) (hcut : first.length < n) :
    planOf (received first) = planOf (received text) ↔ requestParser (received text) = .error .invalid := by
  have hplan : planOf (received first) = .static (unprocessable "98") :=
    planOf_answer (errandOf_refused.mpr (received_cut hlen h hfirst hcut))
  rw [hplan, ← errandOf_refused]
  constructor
  · intro heq
    rcases planOf_static heq.symm with herrand | ⟨h40, _⟩
    · exact herrand
    · exact absurd h40 (by decide +kernel)
  · intro herrand
    exact (planOf_answer herrand).symm

/-- Cut behind the head, the plan is the same when what is behind the cut is harmless. -/
theorem planOf_cut (hlen : text.length ≤ maxReqRespSize) (h : phrParseRequest text 100 = .ok (r, n))
    (hfirst : first <+: text) (hcut : n ≤ first.length) (hharmless : CutHarmless text first r n) :
    planOf (received first) = planOf (received text) := by
  have hparser := requestParser_cut hlen h hfirst hcut (hharmless.routes hcut)
  have herrand : errandOf (received first) = errandOf (received text) := by
    unfold errandOf
    rw [hparser]
  have hparse : ∀ d, errandOf (received text) = .transacao d →
      parseTransacoes (received first) d = parseTransacoes (received text) d := by
    intro d hd
    obtain ⟨hok, hm, hu⟩ := errandOf_transacao hd
    obtain ⟨r', hr', hmethod', hpath', hsearched'⟩ := searched_received hlen h
    have hto := (requestParser_routedTo hr' _ _).mp ⟨d, hok, hm, hu⟩
    have hbody : d.bodyLoc = n := by
      obtain ⟨_, _, _, _, _, _, rfl⟩ := (requestParser_ok_iff hr' d).mp hok
      rfl
    rw [hsearched'] at hto
    have hcase := hharmless.body hcut ⟨hmethod' ▸ hto.method, hto.route, hpath' ▸ hto.number⟩
    rw [← hbody] at hcase hcut
    exact parseTransacoes_same hlen hfirst hcut hcase
  unfold planOf
  rw [herrand]
  cases hd : errandOf (received text) with
  | answer response => rfl
  | extrato id => rfl
  | transacao d => simp only [hparse d hd]

/-- The response and the query are the same however a complete request is cut, when what
is behind the first cut does not matter; and where that is in the head, only then. -/
theorem segmentationIndependent_of_cutHarmless {segments : List (List UInt8)} (hlen : text.length ≤ maxReqRespSize)
    (h : phrParseRequest text 100 = .ok (r, n)) (hsegments : segments.flatten = text) :
    (CutHarmless text (segments.headD []) r n → SegmentationIndependent text segments) ∧
      ((segments.headD []).length < n → SegmentationIndependent text segments →
        CutHarmless text (segments.headD []) r n) := by
  have hfirst : segments.headD [] <+: text := by
    rw [← hsegments]
    cases segments with
    | nil => exact List.nil_prefix
    | cons segment segments => exact List.prefix_append ..
  have hread : readOnce segments = received (segments.headD []) := by
    cases segments with
    | nil => rfl
    | cons segment segments => rfl
  unfold SegmentationIndependent
  rw [sameOutcome_iff, hread]
  show (_ → planOf (received (segments.headD [])) = planOf (received text)) ∧
    (_ → planOf (received (segments.headD [])) = planOf (received text) → _)
  generalize segments.headD [] = first at *
  constructor
  · intro hharmless
    rcases Nat.lt_or_ge first.length n with hcut | hcut
    · exact (refused_of_planOf hlen h hfirst hcut).mpr ((requestParser_refused hlen h).mpr (hharmless.head hcut))
    · exact planOf_cut hlen h hfirst hcut hharmless
  · intro hcut hplan
    have hrefused := (requestParser_refused hlen h).mp ((refused_of_planOf hlen h hfirst hcut).mp hplan)
    exact ⟨fun _ => hrefused, fun hn => absurd hcut (not_lt.mpr hn), fun hn => absurd hcut (not_lt.mpr hn)⟩

end Cut

/-! ### A transaction in two segments -/

theorem errandOf_parsedPost {text : List UInt8} (hlen : text.length ≤ maxReqRespSize)
    (h : phrParseRequest text 100 = .ok (parsedPost text, 40)) (htext : ∀ b ∈ text.drop 5, b ≠ 0)
    (hbehind : ∀ s ∈ endings, ¬ bytes s <:+: ((text.drop 5).drop 23).map lower) :
    errandOf (received text) = .transacao ⟨.transacao, .post, 40, 1⟩ := by
  unfold errandOf
  rw [requestParser_parsedPost hlen h htext hbehind]
  rfl

/-- Cut behind its first byte or behind its head, it is refused, and no query is sent. -/
theorem postInTwo :
    plainPost.length ≤ maxReqRespSize ∧ phrParseRequest plainPost 100 = .ok (parsedPost plainPost, 40) ∧
      planOf (received plainPost) = .query (.pushCredito 1 1 [97]) ∧
      planOf (received (plainPost.take 1)) = .static (unprocessable "98") ∧
      planOf (received (plainPost.take 40)) = .static (unprocessable "40") ∧
      ∀ k ∈ [1, 40], [plainPost.take k, plainPost.drop k].flatten = plainPost ∧
        ¬ SegmentationIndependent plainPost [plainPost.take k, plainPost.drop k] := by
  have hwhole : planOf (received plainPost) = .query (.pushCredito 1 1 [97]) :=
    planOf_transacao (errandOf_parsedPost (by decide +kernel) plainPost_parsed (by decide +kernel)
      (by decide +kernel)) postOne_valid
  have hbyte : planOf (received (plainPost.take 1)) = .static (unprocessable "98") := by decide +kernel
  have hcut : phrParseRequest (plainPost.take 40) 100 = .ok (parsedPost (plainPost.take 40), 40) := by
    decide +kernel
  have hhead : planOf (received (plainPost.take 40)) = .static (unprocessable "40") := by
    apply planOf_invalid (errandOf_parsedPost (by decide +kernel) hcut (by decide +kernel) (by decide +kernel))
    show parseTransacoes _ _ = .error .invalid
    decide +kernel
  refine ⟨by decide +kernel, plainPost_parsed, hwhole, hbyte, hhead, fun k hk => ⟨by simp, fun h => ?_⟩⟩
  have hplan : planOf (received (plainPost.take k)) = planOf (received plainPost) := sameOutcome_iff.mp h
  rw [hwhole] at hplan
  rcases List.mem_cons.mp hk with rfl | hk
  · cases hbyte.symm.trans hplan
  · obtain rfl := List.mem_singleton.mp hk
    cases hhead.symm.trans hplan

/-- With a line's end behind its object, it may be cut there. -/
theorem postAndLine :
    SegmentationIndependent (plainPost ++ [13, 10]) [plainPost, [13, 10]] := by
  have hline : phrParseRequest (plainPost ++ [13, 10]) 100 = .ok (parsedPost (plainPost ++ [13, 10]), 40) := by
    decide +kernel
  have hroutes : SameRoutes (cstr (upToCut (plainPost ++ [13, 10]) plainPost (parsedPost (plainPost ++ [13, 10]))))
      (cstr (parsedPost (plainPost ++ [13, 10])).pathText) := by
    apply sameRoutes_of_hits
    rw [hits_splitOnP, hits_splitOnP]
    decide +kernel
  refine (segmentationIndependent_of_cutHarmless (by decide +kernel) hline rfl).1
    ⟨fun hcut => absurd hcut (by decide +kernel), fun _ => hroutes, fun _ _ object child hloose hobject => ?_⟩
  have hrest : (parseWithOpts (cstr ((plainPost ++ [13, 10]).drop 40))).map Prod.snd = some [13, 10] := by
    decide +kernel
  have htext : cstr ((plainPost ++ [13, 10]).drop 40) = cstr (plainPost.drop 40) ++ [13, 10] := by decide +kernel
  obtain ⟨rest, heq⟩ := hobject
  rw [parseWithOpts_iff.mpr ⟨object, heq.symm, hloose⟩] at hrest
  obtain rfl : rest = [13, 10] := Option.some.inj hrest
  exact ⟨[], by rw [List.append_nil]; exact List.append_cancel_right (heq.trans htext)⟩

end Rinha.Server
