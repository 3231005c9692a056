import Rinha.Request.Grammar

/-! Which route `request_parser` selects, and which id it reads for it.

The loop remembers a match of index 0 as it remembers none, so it selects the one other
route that matches beside `transacoes` (`rejectsAmbiguous_iff`). The id is read at the
front of the text and not where the expression was found, so it is the one of the matched
segment only if that stands in front (`idOfSegment_iff`). -/
namespace Rinha.Request
open Library Http

/-! ### The selection -/

section Selection
variable {ρ σ : Type*} (regexec : ρ → σ → Bool) (res : List ρ) (uri : σ)

/-- The loop over the expressions, each of which can be compiled, and the check behind it. -/
def selectRoute : Except ParserError Nat :=
  match matchLoop (-1) 0 (res.map fun r => regexec r uri) with
  | .error e => .error e
  | .ok matched_index => if matched_index < 0 then .error .invalid else .ok matched_index.toNat

/-- The expression of this index matches. -/
def Matches (k : Nat) : Prop := ∃ r, res[k]? = some r ∧ regexec r uri = true

/-- The index selected is that of the only expression that matches, and there is none
when none matches or two do. -/
def RejectsAmbiguous : Prop :=
  (∀ k, selectRoute regexec res uri = .ok k ↔
    Matches regexec res uri k ∧ ∀ j, j ≠ k → ¬ Matches regexec res uri j) ∧
  ((∀ k, ¬ Matches regexec res uri k) ∨
      (∃ j k, j ≠ k ∧ Matches regexec res uri j ∧ Matches regexec res uri k) →
    selectRoute regexec res uri = .error .invalid)

variable {regexec res uri}

theorem getElem?_matches {k : Nat} :
    (res.map fun r => regexec r uri)[k]? = some true ↔ Matches regexec res uri k := by
  rw [List.getElem?_map, Option.map_eq_some_iff]
  rfl

theorem matchLoop_error {m : Int} {i : Nat} {hs : List Bool} {e : ParserError}
    (h : matchLoop m i hs = .error e) : e = .invalid := by
  induction hs generalizing m i with
  | nil => cases h
  | cons hit rest ih =>
    rw [matchLoop] at h
    split at h
    · split at h
      · cases h
        rfl
      · exact ih h
    · exact ih h

theorem selectRoute_iff (k : Nat) :
    selectRoute regexec res uri = .ok k ↔
      Matches regexec res uri k ∧ ∀ j, j ≠ 0 → j ≠ k → ¬ Matches regexec res uri j := by
  have hselects : matchLoop (-1) 0 (res.map fun r => regexec r uri) = .ok (k : Int) ↔
      Matches regexec res uri k ∧ ∀ j, j ≠ 0 → j ≠ k → ¬ Matches regexec res uri j := by
    rw [matchLoop_iff]
    unfold Selects
    simp only [ne_eq, getElem?_matches]
  rw [← hselects]
  unfold selectRoute
  cases hloop : matchLoop (-1) 0 (res.map fun r => regexec r uri) with
  | error e => simp only [reduceCtorEq]
  | ok m =>
    simp only [Except.ok.injEq]
    by_cases hm : m < 0
    · rw [if_pos hm]
      constructor
      · intro h
        cases h
      · intro h
        omega
    · rw [if_neg hm, Except.ok.injEq]
      omega

theorem selectRoute_error {e : ParserError} (h : selectRoute regexec res uri = .error e) : e = .invalid := by
  unfold selectRoute at h
  split at h
  · rename_i e' hloop
    cases h
    exact matchLoop_error hloop
  · split at h
    · cases h
      rfl
    · cases h

/-- An ambiguous text is refused, unless it is the first expression and one other that match. -/
theorem rejectsAmbiguous_iff (regexec : ρ → σ → Bool) (res : List ρ) (uri : σ) :
    RejectsAmbiguous regexec res uri ↔
      ¬ (Matches regexec res uri 0 ∧ ∃ k, k ≠ 0 ∧ Matches regexec res uri k ∧
        ∀ j, j ≠ 0 → j ≠ k → ¬ Matches regexec res uri j) := by
  constructor
  · intro h hambiguous
    obtain ⟨hzero, k, hk, hmatches, hothers⟩ := hambiguous
    have honly := (h.1 k).mp ((selectRoute_iff k).mpr ⟨hmatches, hothers⟩)
    exact honly.2 0 (Ne.symm hk) hzero
  · intro hcond
    have hiff : ∀ k, selectRoute regexec res uri = .ok k ↔
        Matches regexec res uri k ∧ ∀ j, j ≠ k → ¬ Matches regexec res uri j := by
      intro k
      rw [selectRoute_iff]
      refine and_congr_right fun hk => ⟨fun hothers j hj hmatches => ?_, fun honly j _ hj => honly j hj⟩
      by_cases hj0 : j = 0
      · subst hj0
        exact hcond ⟨hmatches, k, Ne.symm hj, hk, hothers⟩
      · exact hothers j hj0 hj hmatches
    refine ⟨hiff, fun hcases => ?_⟩
    cases hselect : selectRoute regexec res uri with
    | error e => rw [selectRoute_error hselect]
    | ok k =>
      exfalso
      obtain ⟨hk, honly⟩ := (hiff k).mp hselect
      rcases hcases with hnone | ⟨i, j, hij, hi, hj⟩
      · exact hnone k hk
      · by_cases hik : i = k
        · exact honly j (fun hjk => hij (hik.trans hjk.symm)) hj
        · exact honly i hik hi

end Selection

/-- A target with the routes of index 0 and 3 in it, of which the second is selected. -/
theorem transacoes_ping :
    selectRoute occurs res (bytes "/clientes/1/transacoes/ping") = .ok 3 ∧
      ¬ RejectsAmbiguous occurs res (bytes "/clientes/1/transacoes/ping") := by
  have hselect : selectRoute occurs res (bytes "/clientes/1/transacoes/ping") = .ok 3 := by decide +kernel
  refine ⟨hselect, fun h => ?_⟩
  have hzero : Matches occurs res (bytes "/clientes/1/transacoes/ping") 0 := ⟨_, rfl, by decide +kernel⟩
  exact ((h.1 3).mp hselect).2 0 (by decide) hzero

/-- This is the selection of `request_parser`. -/
theorem requestParser_selectRoute {buff : List UInt8} {r : Request} {nparsed : Nat} {method : Method}
    (h : phrParseRequest (buff.take maxReqRespSize) 100 = .ok (r, nparsed))
    (hmethod : mapMethod (cstr (r.methodText ++ buff.drop maxReqRespSize)) = some method) :
    requestParser buff =
      match selectRoute occurs res (cstr (r.pathText ++ buff.drop maxReqRespSize)) with
      | .error e => .error e
      | .ok k =>
        if k = 2 ∨ k = 3 then .ok ⟨Uri.ofIndex k, method, nparsed, uint64Max⟩
        else
          match scanId (cstr (r.pathText ++ buff.drop maxReqRespSize)) with
          | none => .error .invalid
          | some id => .ok ⟨Uri.ofIndex k, method, nparsed, id⟩ := by
  have hhits : ∀ uri, (res.map fun r => occurs r uri) = hits uri := fun _ => rfl
  unfold requestParser selectRoute
  rw [h, hhits]
  simp only [hmethod]
  cases matchLoop (-1) 0 (hits (cstr (r.pathText ++ buff.drop maxReqRespSize))) with
  | error e => rfl
  | ok m =>
    by_cases hm : m < 0
    · simp only [if_pos hm]
    · obtain ⟨k, rfl⟩ := Int.eq_ofNat_of_zero_le (not_lt.mp hm)
      simp only [if_neg hm, Int.toNat_natCast]
      norm_cast

/-! ### The id -/

/-- The digits of a word of one of the first two expressions. -/
def digitsOf (word : List UInt8) : List UInt8 :=
  (word.drop (bytes "/clientes/").length).takeWhile isdigit

/-- The id is read, and is the number in the segment that the expression matched, which
is cut at `UINT64_MAX`. -/
def IdOfSegment (uri : List UInt8) (k : Nat) : Prop :=
  ∃ r before word, res[k]? = some r ∧ search r uri = some (before, word) ∧
    scanId uri = some (min (Library.number (digitsOf word)) uint64Max)

/-- The text begins with `/clientes/` in small letters, and the segment stands there; or
the segment stands further on and what stands in front is a numeral of the same value. -/
def SegmentInFront (uri : List UInt8) (k : Nat) : Prop :=
  ∃ r before word rest, res[k]? = some r ∧ search r uri = some (before, word) ∧
    uri = bytes "/clientes/" ++ rest ∧
      (before = [] ∨ ∃ blanks sign digits behind,
        Numeral rest blanks sign digits behind (min (Library.number (digitsOf word)) uint64Max))

/-- A word of one of the first two expressions, cut where its number is. -/
theorem mem_route {k : Nat} (hk : k < 2) {r : RegularExpression UInt8} {w : List UInt8} (hr : res[k]? = some r)
    (hw : w ∈ r.matches') : ∃ u d v, w = u ++ (d ++ 47 :: v) ∧ u.map lower = bytes "/clientes/" ∧
      d ≠ [] ∧ ∀ b ∈ d, isdigit b = true := by
  have hslash : ∀ {t : String} {cs : List UInt8}, bytes t = 47 :: cs → (∀ c ∈ bytes t, ¬ (65 ≤ c ∧ c ≤ 90)) →
      w ∈ (literal "/clientes/" * (number * literal t)).matches' →
      ∃ u d v, w = u ++ (d ++ 47 :: v) ∧ u.map lower = bytes "/clientes/" ∧
        d ≠ [] ∧ ∀ b ∈ d, isdigit b = true := by
    intro t cs ht hsmall hmem
    obtain ⟨u, d, v, rfl, hu, hd, hv⟩ := (mem_numbered clientes_small hsmall).mp hmem
    rw [ht] at hv
    obtain ⟨b, v, rfl, hb, _⟩ := List.map_eq_cons_iff.mp hv
    obtain rfl : b = 47 := by
      unfold lower at hb
      grind
    exact ⟨u, d, v, rfl, hu, hd⟩
  rcases k with _ | _ | k
  · cases hr
    exact hslash rfl (endings_small "/transacoes" (by simp [endings])) hw
  · cases hr
    exact hslash rfl (endings_small "/extrato" (by simp [endings])) hw
  · omega

theorem digitsOf_append {u d v : List UInt8} (hu : u.length = (bytes "/clientes/").length)
    (hd : ∀ b ∈ d, isdigit b = true) : digitsOf (u ++ (d ++ 47 :: v)) = d := by
  unfold digitsOf
  rw [← hu, List.drop_left, takeWhile_append_stop (by decide), List.takeWhile_eq_self_iff.mpr hd]

/-- For a text that one of the first two routes is selected for, the id is the one of the
matched segment exactly when that is in front, or a numeral of its value. -/
theorem idOfSegment_iff {uri : List UInt8} {k : Nat} (hselect : selectRoute occurs res uri = .ok k) (hk : k < 2) :
    IdOfSegment uri k ↔ SegmentInFront uri k := by
  constructor
  · intro h
    obtain ⟨r, before, word, hr, hsearch, hid⟩ := h
    have hpre : bytes "/clientes/" <+: uri := by
      by_contra hno
      rw [scanId, if_neg hno] at hid
      cases hid
    obtain ⟨rest, rfl⟩ := hpre
    rw [scanId_eq] at hid
    exact ⟨r, before, word, rest, hr, hsearch, rfl, .inr (scanLu_numeral hid)⟩
  · intro h
    obtain ⟨r, before, word, rest, hr, hsearch, rfl, hfront⟩ := h
    refine ⟨r, before, word, hr, hsearch, ?_⟩
    rw [scanId_eq]
    rcases hfront with rfl | ⟨blanks, sign, digits, behind, hnumeral⟩
    · have hleftmost := search_leftmost hsearch
      obtain ⟨u, d, v, rfl, hu, hne, hd⟩ := mem_route hk hr hleftmost.mem
      have hlen : u.length = (bytes "/clientes/").length := by rw [← hu, List.length_map]
      obtain ⟨t, ht⟩ := hleftmost.here
      rw [List.nil_append, List.append_assoc] at ht
      obtain ⟨_, rfl⟩ := List.append_inj ht hlen
      rw [digitsOf_append hlen hd, List.append_assoc, List.cons_append]
      exact scanLu_digits ⟨hne, hd, rfl⟩ (v ++ t)
    · exact hnumeral.scanLu

/-- An extrato of client 1 in capitals, and one behind a segment for client 2. -/
def capitals : List UInt8 := bytes "/CLIENTES/1/extrato"

def behindTwo : List UInt8 := bytes "/clientes/2/clientes/1/extrato"

/-- No id is read from the first, and the one of client 2 from the second. -/
theorem id_of_other_segment :
    selectRoute occurs res capitals = .ok 1 ∧ scanId capitals = none ∧ ¬ IdOfSegment capitals 1 ∧
      selectRoute occurs res behindTwo = .ok 1 ∧ scanId behindTwo = some 2 ∧ ¬ IdOfSegment behindTwo 1 := by
  have hnone : scanId capitals = none := by decide +kernel
  have htwo : scanId behindTwo = some 2 := by decide +kernel
  have hmatch : (res[1]?.bind fun r => (search r behindTwo).map fun m => digitsOf m.2) = some (bytes "1") := by
    decide +kernel
  refine ⟨by decide +kernel, hnone, fun h => ?_, by decide +kernel, htwo, fun h => ?_⟩
  · obtain ⟨_, _, _, _, _, hid⟩ := h
    rw [hnone] at hid
    cases hid
  · obtain ⟨r, before, word, hr, hsearch, hid⟩ := h
    rw [hr, Option.bind_some, hsearch, Option.map_some, Option.some.injEq] at hmatch
    rw [hmatch, htwo] at hid
    exact absurd hid (by decide)

/-- In small letters and in front, it is read. -/
theorem idOfSegment_extratoUm : IdOfSegment (bytes "/clientes/1/extrato") 1 := by
  have hsearch : (res[1]?.bind fun r => search r (bytes "/clientes/1/extrato")) =
      some ([], bytes "/clientes/1/extrato") := by
    decide +kernel
  obtain ⟨r, hr, hmatch⟩ := Option.bind_eq_some_iff.mp hsearch
  exact (idOfSegment_iff (by decide +kernel) (by decide)).mpr
    ⟨r, [], _, bytes "1/extrato", hr, hmatch, by decide +kernel, .inl rfl⟩

end Rinha.Request
