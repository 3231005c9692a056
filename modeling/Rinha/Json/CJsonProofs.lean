import Rinha.Json.CJson

/-! Where `cJSON_Parse` stops.

A value that is read to its end is read alike whatever follows it. Only a number needs
to be followed by something to have an end; in an array or an object it always is
(`parseValue_append`), so an object at the front of a text is the value of every text
that goes on from there (`parseWithOpts_append`). -/
namespace Rinha.Json
open Library

/-- `cJSON_ParseWithOpts`, which also gives the text behind the value. -/
def parseWithOpts (value : List UInt8) : Option (CJson × List UInt8) :=
  let s := bufferSkipWhitespace (skipUtf8Bom value)
  parseValue (parseFuel s) 0 s

theorem cJSONParse_eq (value : List UInt8) : cJSONParse value = (parseWithOpts value).map Prod.fst := rfl

/-- The text behind a number begins with a character that is in no number. -/
def Ended : CJson → List UInt8 → Prop
  | .number _, rest => ∃ b ∈ rest.head?, isNumberChar b = false
  | _, _ => True

variable (t : List UInt8)

/-! ### Numbers and strings -/

theorem take_takeWhile_append {α : Type*} (p : α → Bool) (k : Nat) {m u : List α} {b : α}
    (hm : ∀ a ∈ m, p a = true) (hk : m.length ≤ k) (hb : p b = false) :
    ((m ++ b :: u).take k).takeWhile p = m := by
  rw [List.take_append, List.take_of_length_le hk, List.takeWhile_append_of_pos hm]
  cases k - m.length with
  | zero => simp
  | succ j => simp [hb]

theorem parseNumber_number {s rest : List UInt8} {item : CJson} (h : parseNumber s = some (item, rest)) :
    ∃ x, item = .number x := by
  unfold parseNumber at h
  simp only at h
  split at h
  · cases h
  · rename_i x _ _
    cases h
    exact ⟨x, rfl⟩

theorem parseNumber_append {s rest : List UInt8} {item : CJson} (h : parseNumber s = some (item, rest))
    (hrest : ∃ b ∈ rest.head?, isNumberChar b = false) : parseNumber (s ++ t) = some (item, rest ++ t) := by
  obtain ⟨b, hb, hnumber⟩ := hrest
  unfold parseNumber at h
  simp only at h
  split at h
  · cases h
  rename_i x rest' hstrtod
  cases h
  have hall : ∀ a ∈ (s.take 63).takeWhile isNumberChar, isNumberChar a = true :=
    fun a ha => List.mem_takeWhile_imp ha
  obtain ⟨u, hu⟩ : (s.take 63).takeWhile isNumberChar <+: s :=
    (List.takeWhile_prefix _).trans (List.take_prefix ..)
  have hlen : ((s.take 63).takeWhile isNumberChar).length ≤ 63 :=
    (List.takeWhile_prefix _).length_le.trans (List.length_take_le ..)
  generalize (s.take 63).takeWhile isNumberChar = m at *
  subst hu
  have hk : m.length - rest'.length = m.length := by
    -- Otherwise the text goes on with a character of the number.
    by_contra hne
    have hlt : m.length - rest'.length < m.length := by omega
    rw [List.drop_append_of_le_length hlt.le, List.drop_eq_getElem_cons hlt] at hb
    cases hb
    rw [hall _ (List.getElem_mem hlt)] at hnumber
    cases hnumber
  rw [hk, List.drop_left] at hb ⊢
  cases u with
  | nil => cases hb
  | cons c u =>
    cases hb
    have hsame : ((m ++ b :: u ++ t).take 63).takeWhile isNumberChar = m := by
      rw [List.append_assoc]
      exact take_takeWhile_append _ _ hall hlen hnumber
    unfold parseNumber
    simp only [hsame, hstrtod, hk]
    rw [List.append_assoc, List.drop_left]

theorem scanLiteral_append {s lit rest : List UInt8} (h : scanLiteral s = some (lit, rest)) :
    scanLiteral (s ++ t) = some (lit, rest ++ t) := by
  induction s using scanLiteral.induct generalizing lit with
  | case1 => cases h
  | case2 =>
    cases h
    cases t <;> rfl
  | case3 b hb =>
    simp only [scanLiteral, if_neg hb] at h
    cases h
  | case4 c s =>
    cases h
    rfl
  | case5 c s hb ih =>
    rw [scanLiteral, if_neg hb, if_pos rfl, Option.map_eq_some_iff] at h
    obtain ⟨⟨lit', rest'⟩, hscan, heq⟩ := h
    cases heq
    rw [List.cons_append, List.cons_append, scanLiteral, if_neg hb, if_pos rfl, ih hscan]
    rfl
  | case6 b c s hb hb' ih =>
    rw [scanLiteral, if_neg hb, if_neg hb', Option.map_eq_some_iff] at h
    obtain ⟨⟨lit', rest'⟩, hscan, heq⟩ := h
    cases heq
    rw [List.cons_append, List.cons_append, scanLiteral, if_neg hb, if_neg hb', ← List.cons_append, ih hscan]
    rfl

theorem parseString_append {s out rest : List UInt8} (h : parseString s = some (out, rest)) :
    parseString (s ++ t) = some (out, rest ++ t) := by
  unfold parseString at h
  split at h
  · rename_i s'
    split at h
    · cases h
    · rename_i lit rest' hscan
      simp only [List.cons_append, parseString, scanLiteral_append t hscan]
      rw [Option.map_eq_some_iff] at h ⊢
      obtain ⟨out', hout, heq⟩ := h
      cases heq
      exact ⟨_, hout, rfl⟩
  · cases h

/-- White space in front is skipped alike where something stands behind it. -/
theorem bufferSkipWhitespace_append_of_ne_nil {s : List UInt8} (h : bufferSkipWhitespace s ≠ []) :
    bufferSkipWhitespace (s ++ t) = bufferSkipWhitespace s ++ t := by
  unfold bufferSkipWhitespace at h ⊢
  rw [List.dropWhile_append, if_neg]
  rw [List.isEmpty_iff]
  exact h

theorem bufferSkipWhitespace_append {s u : List UInt8} {b : UInt8} (h : bufferSkipWhitespace s = b :: u) :
    bufferSkipWhitespace (s ++ t) = b :: (u ++ t) := by
  rw [bufferSkipWhitespace_append_of_ne_nil t (by rw [h]; exact List.cons_ne_nil b u), h, List.cons_append]

/-! ### Values -/

/-- What `parse_value` reads at the front of a text, by the first character. -/
inductive Reads (fuel depth : Nat) : List UInt8 → CJson → List UInt8 → Prop where
  | null (rest : List UInt8) : Reads fuel depth (bytes "null" ++ rest) .null rest
  | false (rest : List UInt8) : Reads fuel depth (bytes "false" ++ rest) .false rest
  | true (rest : List UInt8) : Reads fuel depth (bytes "true" ++ rest) .true rest
  | string {s out rest : List UInt8} (h : parseString (34 :: s) = some (out, rest)) :
      Reads fuel depth (34 :: s) (.string out) rest
  | number {b : UInt8} {s rest : List UInt8} {item : CJson} (hb : b = 45 ∨ isdigit b = true)
      (h : parseNumber (b :: s) = some (item, rest)) : Reads fuel depth (b :: s) item rest
  | emptyArray {s rest : List UInt8} (hdepth : depth < nestingLimit) (h : bufferSkipWhitespace s = 93 :: rest) :
      Reads fuel depth (91 :: s) (.array []) rest
  | array {b : UInt8} {s u rest : List UInt8} {child : List CJson} (hdepth : depth < nestingLimit)
      (hs : bufferSkipWhitespace s = b :: u) (hb : b ≠ 93)
      (h : parseElements fuel (depth + 1) (b :: u) = some (child, rest)) :
      Reads fuel depth (91 :: s) (.array child) rest
  | emptyObject {s rest : List UInt8} (hdepth : depth < nestingLimit) (h : bufferSkipWhitespace s = 125 :: rest) :
      Reads fuel depth (123 :: s) (.object []) rest
  | object {b : UInt8} {s u rest : List UInt8} {child : List (List UInt8 × CJson)}
      (hdepth : depth < nestingLimit) (hs : bufferSkipWhitespace s = b :: u) (hb : b ≠ 125)
      (h : parseMembers fuel (depth + 1) (b :: u) = some (child, rest)) :
      Reads fuel depth (123 :: s) (.object child) rest

theorem not_prefix_of_head {name s : List UInt8} (h : name.head? ≠ s.head?) (hname : name ≠ []) (hs : s ≠ [])
    (u : List UInt8) : ¬ name <+: s ++ u := by
  cases name with
  | nil => exact absurd rfl hname
  | cons a name =>
    cases s with
    | nil => exact absurd rfl hs
    | cons b s =>
      intro hprefix
      exact h (congrArg some (List.cons_prefix_cons.mp hprefix).1)

/-- A text that begins with none of their letters is none of the names. -/
theorem not_name {b : UInt8} (s : List UInt8) (hb : b ≠ 110 ∧ b ≠ 102 ∧ b ≠ 116) :
    ¬ bytes "null" <+: b :: s ∧ ¬ bytes "false" <+: b :: s ∧ ¬ bytes "true" <+: b :: s := by
  have hnot : ∀ name : List UInt8, name ≠ [] → name.head? ≠ some b → ¬ name <+: b :: s :=
    fun name hname hne => not_prefix_of_head (s := [b]) hne hname (by simp) s
  refine ⟨hnot _ (by decide) fun h => hb.1 ?_, hnot _ (by decide) fun h => hb.2.1 ?_,
    hnot _ (by decide) fun h => hb.2.2 ?_⟩
  · exact (Option.some.inj h).symm
  · exact (Option.some.inj h).symm
  · exact (Option.some.inj h).symm

theorem number_head {b : UInt8} (hb : b = 45 ∨ isdigit b = true) :
    (b ≠ 110 ∧ b ≠ 102 ∧ b ≠ 116) ∧ b ≠ 34 ∧ (decide (b = 45) || isdigit b) = true := by
  refine ⟨?_, ?_, by simpa using hb⟩
  · rcases hb with rfl | hb
    · decide
    · unfold isdigit at hb
      grind
  · rcases hb with rfl | hb
    · decide
    · unfold isdigit at hb
      grind

theorem parseValue_iff {fuel depth : Nat} {s rest : List UInt8} {item : CJson} :
    parseValue (fuel + 1) depth s = some (item, rest) ↔ Reads fuel depth s item rest := by
  constructor
  · intro h
    rw [parseValue.eq_def] at h
    simp only at h
    split at h
    · rename_i hname
      obtain ⟨u, rfl⟩ := hname
      cases h
      exact .null u
    split at h
    · rename_i hname
      obtain ⟨u, rfl⟩ := hname
      cases h
      exact .false u
    split at h
    · rename_i hname
      obtain ⟨u, rfl⟩ := hname
      cases h
      exact .true u
    split at h
    · cases h
    rename_i b s' _ _ _
    split at h
    · rename_i hb
      subst hb
      obtain ⟨⟨out, rest'⟩, hs, heq⟩ := Option.map_eq_some_iff.mp h
      cases heq
      exact .string hs
    split at h
    · rename_i hb
      exact .number (by simpa using hb) h
    split at h
    · rename_i hb
      subst hb
      split at h
      · cases h
      rename_i hdepth
      split at h
      · cases h
      · rename_i u hu
        cases h
        exact .emptyArray (not_le.mp hdepth) hu
      · rename_i hnil hne
        obtain ⟨⟨child, rest'⟩, hs, heq⟩ := Option.map_eq_some_iff.mp h
        cases heq
        cases hu : bufferSkipWhitespace s' with
        | nil => exact absurd hu hnil
        | cons c u =>
          refine .array (not_le.mp hdepth) hu (fun hc => hne u ?_) (hu ▸ hs)
          rw [hu, hc]
    split at h
    · rename_i hb
      subst hb
      split at h
      · cases h
      rename_i hdepth
      split at h
      · cases h
      · rename_i u hu
        cases h
        exact .emptyObject (not_le.mp hdepth) hu
      · rename_i hnil hne
        obtain ⟨⟨child, rest'⟩, hs, heq⟩ := Option.map_eq_some_iff.mp h
        cases heq
        cases hu : bufferSkipWhitespace s' with
        | nil => exact absurd hu hnil
        | cons c u =>
          refine .object (not_le.mp hdepth) hu (fun hc => hne u ?_) (hu ▸ hs)
          rw [hu, hc]
    · cases h
  · intro h
    rw [parseValue.eq_def]
    simp only
    cases h with
    | null =>
      rw [if_pos (List.prefix_append ..)]
      rfl
    | false =>
      rw [if_neg (not_prefix_of_head (by decide) (by decide) (by decide) _), if_pos (List.prefix_append ..)]
      rfl
    | true =>
      rw [if_neg (not_prefix_of_head (by decide) (by decide) (by decide) _),
        if_neg (not_prefix_of_head (by decide) (by decide) (by decide) _), if_pos (List.prefix_append ..)]
      rfl
    | string h =>
      obtain ⟨hnull, hfalse, htrue⟩ := not_name (b := 34) _ (by decide)
      rw [if_neg hnull, if_neg hfalse, if_neg htrue]
      simp only [if_true, h]
      rfl
    | number hb h =>
      obtain ⟨hname, h34, hnumber⟩ := number_head hb
      obtain ⟨hnull, hfalse, htrue⟩ := not_name _ hname
      rw [if_neg hnull, if_neg hfalse, if_neg htrue]
      simp only [if_neg h34, if_pos hnumber, h]
    | emptyArray hdepth h =>
      obtain ⟨hnull, hfalse, htrue⟩ := not_name (b := 91) _ (by decide)
      rw [if_neg hnull, if_neg hfalse, if_neg htrue]
      simp [not_le.mpr hdepth, h, isdigit]
    | array hdepth hs hb h =>
      obtain ⟨hnull, hfalse, htrue⟩ := not_name (b := 91) _ (by decide)
      rw [if_neg hnull, if_neg hfalse, if_neg htrue]
      simp [not_le.mpr hdepth, hs, hb, h, isdigit]
    | emptyObject hdepth h =>
      obtain ⟨hnull, hfalse, htrue⟩ := not_name (b := 123) _ (by decide)
      rw [if_neg hnull, if_neg hfalse, if_neg htrue]
      simp [not_le.mpr hdepth, h, isdigit]
    | object hdepth hs hb h =>
      obtain ⟨hnull, hfalse, htrue⟩ := not_name (b := 123) _ (by decide)
      rw [if_neg hnull, if_neg hfalse, if_neg htrue]
      simp [not_le.mpr hdepth, hs, hb, h, isdigit]

/-- The loop of `parse_array` reads an element, and a comma or the bracket behind it. -/
theorem parseElements_iff {fuel depth : Nat} {s rest : List UInt8} {child : List CJson} :
    parseElements (fuel + 1) depth s = some (child, rest) ↔
      ∃ item u, parseValue fuel depth (bufferSkipWhitespace s) = some (item, u) ∧
        ((∃ w child', bufferSkipWhitespace u = 44 :: w ∧ parseElements fuel depth w = some (child', rest) ∧
            child = item :: child') ∨
          (bufferSkipWhitespace u = 93 :: rest ∧ child = [item])) := by
  constructor
  · intro h
    rw [parseElements.eq_def] at h
    simp only at h
    split at h
    · cases h
    rename_i item u hvalue
    refine ⟨item, u, hvalue, ?_⟩
    split at h
    · rename_i w hw
      obtain ⟨⟨child', rest'⟩, hs, heq⟩ := Option.map_eq_some_iff.mp h
      cases heq
      exact .inl ⟨w, child', hw, hs, rfl⟩
    · rename_i w hw
      cases h
      exact .inr ⟨hw, rfl⟩
    · cases h
  · intro h
    obtain ⟨item, u, hvalue, h⟩ := h
    rw [parseElements.eq_def]
    rcases h with ⟨w, child', hw, hs, rfl⟩ | ⟨hw, rfl⟩
    · simp only [hvalue, hw, hs]
      rfl
    · simp only [hvalue, hw]

/-- The loop of `parse_object` reads a name, a colon and a value, and a comma or the
brace behind it. -/
theorem parseMembers_iff {fuel depth : Nat} {s rest : List UInt8} {child : List (List UInt8 × CJson)} :
    parseMembers (fuel + 1) depth s = some (child, rest) ↔
      ∃ name item u v w, parseString (bufferSkipWhitespace s) = some (name, u) ∧
        bufferSkipWhitespace u = 58 :: v ∧
        parseValue fuel depth (bufferSkipWhitespace v) = some (item, w) ∧
        ((∃ x child', bufferSkipWhitespace w = 44 :: x ∧ parseMembers fuel depth x = some (child', rest) ∧
            child = (name, item) :: child') ∨
          (bufferSkipWhitespace w = 125 :: rest ∧ child = [(name, item)])) := by
  constructor
  · intro h
    rw [parseMembers.eq_def] at h
    simp only at h
    split at h
    · cases h
    rename_i name u hname
    split at h
    · rename_i v hv
      split at h
      · cases h
      rename_i item w hvalue
      refine ⟨name, item, u, v, w, hname, hv, hvalue, ?_⟩
      split at h
      · rename_i x hx
        obtain ⟨⟨child', rest'⟩, hs, heq⟩ := Option.map_eq_some_iff.mp h
        cases heq
        exact .inl ⟨x, child', hx, hs, rfl⟩
      · rename_i x hx
        cases h
        exact .inr ⟨hx, rfl⟩
      · cases h
    · cases h
  · intro h
    obtain ⟨name, item, u, v, w, hname, hv, hvalue, h⟩ := h
    rw [parseMembers.eq_def]
    rcases h with ⟨x, child', hx, hs, rfl⟩ | ⟨hx, rfl⟩
    · simp only [hname, hv, hvalue, hx, hs]
      rfl
    · simp only [hname, hv, hvalue, hx]

theorem parseValue_ne_nil {fuel depth : Nat} {s rest : List UInt8} {item : CJson}
    (h : parseValue fuel depth s = some (item, rest)) : s ≠ [] := by
  cases fuel with
  | zero =>
    rw [parseValue.eq_def] at h
    cases h
  | succ fuel =>
    cases parseValue_iff.mp h with
    | null => exact List.append_ne_nil_of_left_ne_nil (by decide) _
    | false => exact List.append_ne_nil_of_left_ne_nil (by decide) _
    | true => exact List.append_ne_nil_of_left_ne_nil (by decide) _
    | _ => simp

theorem parseString_ne_nil {s out rest : List UInt8} (h : parseString s = some (out, rest)) : s ≠ [] := by
  intro hs
  rw [hs] at h
  cases h

/-! ### What follows a value -/

/-- Whatever is found behind white space ends a number. -/
theorem ended_of_skip {u w : List UInt8} {c : UInt8} (h : bufferSkipWhitespace u = c :: w)
    (hc : isNumberChar c = false) (item : CJson) : Ended item u := by
  cases item with
  | number x =>
    cases u with
    | nil => cases h
    | cons b u =>
      refine ⟨b, rfl, ?_⟩
      unfold bufferSkipWhitespace at h
      rw [List.dropWhile_cons] at h
      split at h
      · rename_i hb
        have hb : b ≤ 32 := by simpa using hb
        unfold isNumberChar isdigit
        grind
      · cases h
        exact hc
  | _ => trivial

/-- What a text's first value is, each text that goes on behind it has as well, on more fuel. -/
theorem parse_append (fuel : Nat) :
    (∀ {depth s rest item}, parseValue fuel depth s = some (item, rest) → Ended item rest →
      ∀ {fuel'}, fuel ≤ fuel' → parseValue fuel' depth (s ++ t) = some (item, rest ++ t)) ∧
    (∀ {depth s rest child}, parseElements fuel depth s = some (child, rest) →
      ∀ {fuel'}, fuel ≤ fuel' → parseElements fuel' depth (s ++ t) = some (child, rest ++ t)) ∧
    (∀ {depth s rest child}, parseMembers fuel depth s = some (child, rest) →
      ∀ {fuel'}, fuel ≤ fuel' → parseMembers fuel' depth (s ++ t) = some (child, rest ++ t)) := by
  induction fuel with
  | zero =>
    refine ⟨fun h => ?_, fun h => ?_, fun h => ?_⟩
    · rw [parseValue.eq_def] at h
      cases h
    · rw [parseElements.eq_def] at h
      cases h
    · rw [parseMembers.eq_def] at h
      cases h
  | succ fuel ih =>
    obtain ⟨ihValue, ihElements, ihMembers⟩ := ih
    refine ⟨?_, ?_, ?_⟩
    · intro depth s rest item h hended fuel' hfuel
      obtain ⟨fuel', rfl⟩ := Nat.exists_eq_add_of_le' (Nat.one_le_of_lt hfuel)
      replace hfuel := Nat.le_of_succ_le_succ hfuel
      rw [parseValue_iff] at h ⊢
      cases h with
      | null => exact List.append_assoc .. ▸ .null _
      | false => exact List.append_assoc .. ▸ .false _
      | true => exact List.append_assoc .. ▸ .true _
      | string h => exact .string (parseString_append t h)
      | number hb h =>
        obtain ⟨x, rfl⟩ := parseNumber_number h
        exact .number hb (parseNumber_append t h hended)
      | emptyArray hdepth h => exact .emptyArray hdepth (bufferSkipWhitespace_append t h)
      | array hdepth hs hb h => exact .array hdepth (bufferSkipWhitespace_append t hs) hb (ihElements h hfuel)
      | emptyObject hdepth h => exact .emptyObject hdepth (bufferSkipWhitespace_append t h)
      | object hdepth hs hb h => exact .object hdepth (bufferSkipWhitespace_append t hs) hb (ihMembers h hfuel)
    · intro depth s rest child h fuel' hfuel
      obtain ⟨fuel', rfl⟩ := Nat.exists_eq_add_of_le' (Nat.one_le_of_lt hfuel)
      replace hfuel := Nat.le_of_succ_le_succ hfuel
      rw [parseElements_iff] at h ⊢
      obtain ⟨item, u, hvalue, hnext⟩ := h
      refine ⟨item, u ++ t, ?_, ?_⟩
      · rw [bufferSkipWhitespace_append_of_ne_nil t (parseValue_ne_nil hvalue)]
        refine ihValue hvalue ?_ hfuel
        rcases hnext with ⟨w, child', hw, _, _⟩ | ⟨hw, _⟩
        · exact ended_of_skip hw (by decide) item
        · exact ended_of_skip hw (by decide) item
      · rcases hnext with ⟨w, child', hw, hchild, rfl⟩ | ⟨hw, rfl⟩
        · exact .inl ⟨w ++ t, child', bufferSkipWhitespace_append t hw, ihElements hchild hfuel, rfl⟩
        · exact .inr ⟨bufferSkipWhitespace_append t hw, rfl⟩
    · intro depth s rest child h fuel' hfuel
      obtain ⟨fuel', rfl⟩ := Nat.exists_eq_add_of_le' (Nat.one_le_of_lt hfuel)
      replace hfuel := Nat.le_of_succ_le_succ hfuel
      rw [parseMembers_iff] at h ⊢
      obtain ⟨name, item, u, v, w, hname, hv, hvalue, hnext⟩ := h
      refine ⟨name, item, u ++ t, v ++ t, w ++ t, ?_, bufferSkipWhitespace_append t hv, ?_, ?_⟩
      · rw [bufferSkipWhitespace_append_of_ne_nil t (parseString_ne_nil hname)]
        exact parseString_append t hname
      · rw [bufferSkipWhitespace_append_of_ne_nil t (parseValue_ne_nil hvalue)]
        refine ihValue hvalue ?_ hfuel
        rcases hnext with ⟨x, child', hx, _, _⟩ | ⟨hx, _⟩
        · exact ended_of_skip hx (by decide) item
        · exact ended_of_skip hx (by decide) item
      · rcases hnext with ⟨x, child', hx, hchild, rfl⟩ | ⟨hx, rfl⟩
        · exact .inl ⟨x ++ t, child', bufferSkipWhitespace_append t hx, ihMembers hchild hfuel, rfl⟩
        · exact .inr ⟨bufferSkipWhitespace_append t hx, rfl⟩

/-- Only a text that begins with the byte order mark's first byte has one in front. -/
theorem skipUtf8Bom_append {s : List UInt8} (hne : s ≠ [])
    (h : s.head? = some 0xEF → 4 ≤ s.length ∧ [0xEF, 0xBB, 0xBF] <+: s) :
    skipUtf8Bom (s ++ t) = skipUtf8Bom s ++ t := by
  unfold skipUtf8Bom
  by_cases hbom : 4 ≤ s.length ∧ [0xEF, 0xBB, 0xBF] <+: s
  · rw [if_pos hbom, if_pos, List.drop_append_of_le_length (by omega)]
    rw [List.length_append]
    exact ⟨by omega, hbom.2.trans (List.prefix_append ..)⟩
  · rw [if_neg hbom, if_neg]
    intro hbom'
    refine hbom (h ?_)
    cases s with
    | nil => exact absurd rfl hne
    | cons b s => exact congrArg some (List.cons_prefix_cons.mp hbom'.2).1.symm

/-- An object at the front of a text is the value of each text that goes on from there. -/
theorem parseWithOpts_append {s rest : List UInt8} {child : List (List UInt8 × CJson)}
    (h : parseWithOpts s = some (.object child, rest)) :
    parseWithOpts (s ++ t) = some (.object child, rest ++ t) := by
  unfold parseWithOpts at h ⊢
  simp only at h ⊢
  have hne := parseValue_ne_nil h
  have hbom : skipUtf8Bom (s ++ t) = skipUtf8Bom s ++ t := by
    refine skipUtf8Bom_append t (fun hnil => hne (by rw [hnil]; rfl)) fun hhead => ?_
    by_contra hbom
    obtain ⟨u, rfl⟩ : ∃ u, s = 0xEF :: u := by
      cases s with
      | nil => cases hhead
      | cons b u => exact ⟨u, by rw [Option.some.inj hhead]⟩
    -- No value begins with that byte.
    rw [skipUtf8Bom, if_neg hbom] at h
    have hreads : Reads _ 0 (0xEF :: u) (.object child) rest := parseValue_iff.mp h
    cases hreads with
    | number hb h =>
      obtain ⟨x, hx⟩ := parseNumber_number h
      cases hx
  rw [hbom, bufferSkipWhitespace_append_of_ne_nil t hne]
  refine (parse_append t _).1 h trivial ?_
  unfold parseFuel
  rw [List.length_append]
  omega

end Rinha.Json
