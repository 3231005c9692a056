import Rinha.Json.Literals

/-! The documents that `cJSON_Parse` reads, and what it makes of them.

The grammar says how a value may be written: numerals, the text of a string between its
quotes, and white space wherever it may stand. What these are is a parameter of it
(`Dialect`). JSON writes the characters of a string as they are or as escape sequences,
and has no numeral with a zero in front of other digits (`Strict`); `cJSON_Parse` reads
those of up to 63 characters (`Copied`). Of a document in the grammar with the latter it
makes that value, its strings in UTF-8, when its arrays and objects are nested 1000 deep
at most, and else nothing (`cJSONParse_document`). -/
namespace Rinha.Json
open Library

/-! ### Values -/

/-- How the parts of a value are written. -/
structure Dialect where
  numeral : List UInt8 → Double → Prop
  /-- The text of a string between its quotes, and the bytes that it is for. -/
  literal : List UInt8 → List UInt8 → Prop
  space : UInt8 → Prop

def Dialect.Blank (d : Dialect) (s : List UInt8) : Prop := ∀ b ∈ s, d.space b

/-- The white space of a document. -/
def Blank (s : List UInt8) : Prop := ∀ b ∈ s, b = 32 ∨ b = 9 ∨ b = 10 ∨ b = 13

/-- The bytes are the characters' that the text spells. -/
def Spelled (text out : List UInt8) : Prop := ∃ chars, Literal text chars ∧ utf8 chars = out

/-- JSON, with these numerals. -/
def json (numeral : List UInt8 → Double → Prop) : Dialect where
  numeral := numeral
  literal := Spelled
  space b := b = 32 ∨ b = 9 ∨ b = 10 ∨ b = 13

/-- JSON's numerals: no zero stands in front of another digit. -/
structure Strict (text : List UInt8) (x : Double) : Prop where
  numeral : Numeral text x
  zero : ∀ d rest, text = 48 :: d :: rest ∨ text = 45 :: 48 :: d :: rest → isdigit d = false

/-- A numeral that is no longer than what is copied of it. -/
structure Copied (text : List UInt8) (x : Double) : Prop where
  numeral : Numeral text x
  length : text.length ≤ 63

mutual

/-- The text of a value, and how deep the arrays and objects in it are nested. -/
inductive Text (d : Dialect) : Nat → List UInt8 → CJson → Prop where
  | null : Text d 0 (bytes "null") .null
  | false : Text d 0 (bytes "false") .false
  | true : Text d 0 (bytes "true") .true
  | number (text : List UInt8) (x : Double) (h : d.numeral text x) : Text d 0 text (.number x)
  | string (text out : List UInt8) (h : d.literal text out) : Text d 0 (34 :: (text ++ [34])) (.string out)
  | emptyArray (blank : List UInt8) (hblank : d.Blank blank) : Text d 1 (91 :: (blank ++ [93])) (.array [])
  | array (depth : Nat) (text : List UInt8) (child : List CJson) (h : Elements d depth text child) :
      Text d (depth + 1) (91 :: (text ++ [93])) (.array child)
  | emptyObject (blank : List UInt8) (hblank : d.Blank blank) : Text d 1 (123 :: (blank ++ [125])) (.object [])
  | object (depth : Nat) (text : List UInt8) (child : List (List UInt8 × CJson)) (h : Members d depth text child) :
      Text d (depth + 1) (123 :: (text ++ [125])) (.object child)

/-- The elements of an array and the commas between them. -/
inductive Elements (d : Dialect) : Nat → List UInt8 → List CJson → Prop where
  | last (depth : Nat) (before text after : List UInt8) (item : CJson) (hbefore : d.Blank before)
      (h : Text d depth text item) (hafter : d.Blank after) : Elements d depth (before ++ (text ++ after)) [item]
  | more (depth depth' : Nat) (before text after texts : List UInt8) (item : CJson) (child : List CJson)
      (hbefore : d.Blank before) (h : Text d depth text item) (hafter : d.Blank after)
      (hmore : Elements d depth' texts child) :
      Elements d (max depth depth') (before ++ (text ++ (after ++ 44 :: texts))) (item :: child)

/-- A name, a colon and a value. -/
inductive Member (d : Dialect) : Nat → List UInt8 → List UInt8 × CJson → Prop where
  | mk (depth : Nat) (before text name colon space value after : List UInt8) (item : CJson) (hbefore : d.Blank before)
      (hname : d.literal text name) (hcolon : d.Blank colon) (hspace : d.Blank space) (h : Text d depth value item)
      (hafter : d.Blank after) :
      Member d depth (before ++ 34 :: (text ++ 34 :: (colon ++ 58 :: (space ++ (value ++ after))))) (name, item)

/-- The members of an object and the commas between them. -/
inductive Members (d : Dialect) : Nat → List UInt8 → List (List UInt8 × CJson) → Prop where
  | last (depth : Nat) (text : List UInt8) (member : List UInt8 × CJson) (h : Member d depth text member) :
      Members d depth text [member]
  | more (depth depth' : Nat) (text texts : List UInt8) (member : List UInt8 × CJson)
      (child : List (List UInt8 × CJson)) (h : Member d depth text member) (hmore : Members d depth' texts child) :
      Members d (max depth depth') (text ++ 44 :: texts) (member :: child)

end

/-- A numeral begins with a minus or a digit. -/
def Dialect.Headed (d : Dialect) : Prop :=
  ∀ text x, d.numeral text x → ∃ b s, text = b :: s ∧ (b = 45 ∨ isdigit b = true)

/-- What is written in the dialect is read so. -/
structure Dialect.Readable (d : Dialect) : Prop where
  head : d.Headed
  numeral : ∀ {text x}, d.numeral text x → ∀ {rest : List UInt8}, (∀ b ∈ rest.head?, isNumberChar b = false) →
    parseNumber (text ++ rest) = some (.number x, rest)
  literal : ∀ {text out}, d.literal text out → ∀ rest, parseString (34 :: (text ++ 34 :: rest)) = some (out, rest)
  space : ∀ {b}, d.space b → b ≤ 32

theorem readable_copied : (json Copied).Readable where
  head _ _ h := h.numeral.loose.head
  numeral h := h.numeral.loose.parseNumber_eq h.length
  literal := by
    intro text out h rest
    obtain ⟨chars, hchars, rfl⟩ := h
    exact hchars.parseString_eq rest
  space := by
    intro b h
    rcases h with rfl | rfl | rfl | rfl <;> decide

section Reading
variable {d : Dialect}

/-- Behind a number no character of a number follows. -/
def Stops : CJson → List UInt8 → Prop
  | .number _, rest => ∀ b ∈ rest.head?, isNumberChar b = false
  | _, _ => True

theorem bufferSkipWhitespace_blank (hd : d.Readable) {blank : List UInt8} (h : d.Blank blank) {b : UInt8}
    (hb : 32 < b) (s : List UInt8) : bufferSkipWhitespace (blank ++ b :: s) = b :: s := by
  unfold bufferSkipWhitespace
  rw [List.dropWhile_append_of_pos, List.dropWhile_cons_of_neg]
  · simpa using hb
  · exact fun c hc => decide_eq_true (hd.space (h c hc))

theorem space_not_number {b : UInt8} (hb : b ≤ 32) : isNumberChar b = false := by
  unfold isNumberChar isdigit
  grind

/-- A comma or a bracket behind white space ends any value. -/
theorem stops_blank (hd : d.Readable) {blank : List UInt8} (h : d.Blank blank) {b : UInt8}
    (hb : isNumberChar b = false) (item : CJson) (s : List UInt8) : Stops item (blank ++ b :: s) := by
  cases item with
  | number x =>
    cases blank with
    | nil => rintro c ⟨⟩; exact hb
    | cons c blank =>
      rintro e ⟨⟩
      exact space_not_number (hd.space (h c (List.mem_cons_self ..)))
  | _ => trivial

/-- A value begins with a character that is neither white space nor a bracket that ends one. -/
theorem Text.first (hd : d.Headed) {depth : Nat} {text : List UInt8} {item : CJson} (h : Text d depth text item) :
    ∃ b s, text = b :: s ∧ 32 < b ∧ b ≠ 93 ∧ b ≠ 0xEF := by
  cases h with
  | null => exact ⟨_, _, rfl, by decide⟩
  | false => exact ⟨_, _, rfl, by decide⟩
  | true => exact ⟨_, _, rfl, by decide⟩
  | number _ x h =>
    obtain ⟨b, s, rfl, hb⟩ := hd _ _ h
    refine ⟨b, s, rfl, ?_⟩
    rcases hb with rfl | hb
    · decide
    · unfold isdigit at hb
      grind
  | string => exact ⟨_, _, rfl, by decide⟩
  | emptyArray => exact ⟨_, _, rfl, by decide⟩
  | array => exact ⟨_, _, rfl, by decide⟩
  | emptyObject => exact ⟨_, _, rfl, by decide⟩
  | object => exact ⟨_, _, rfl, by decide⟩

theorem bufferSkipWhitespace_text (hd : d.Readable) {blank : List UInt8} (hblank : d.Blank blank) {depth : Nat}
    {text : List UInt8} {item : CJson} (h : Text d depth text item) (s : List UInt8) :
    bufferSkipWhitespace (blank ++ (text ++ s)) = text ++ s := by
  obtain ⟨b, u, rfl, hb, _⟩ := h.first hd.head
  exact bufferSkipWhitespace_blank hd hblank hb (u ++ s)

/-- No value and no white space begins like the byte order mark. -/
theorem skipUtf8Bom_text (hd : d.Readable) {mark before text : List UInt8} {depth : Nat} {item : CJson}
    (hmark : mark = [] ∨ mark = [0xEF, 0xBB, 0xBF]) (hbefore : d.Blank before) (h : Text d depth text item)
    (s : List UInt8) : skipUtf8Bom (mark ++ (before ++ (text ++ s))) = before ++ (text ++ s) := by
  obtain ⟨b, u, rfl, _, _, hb⟩ := h.first hd.head
  unfold skipUtf8Bom
  rcases hmark with rfl | rfl
  · rw [List.nil_append, if_neg]
    rintro ⟨_, hprefix⟩
    cases before with
    | nil => exact hb (List.cons_prefix_cons.mp hprefix).1.symm
    | cons c before =>
      have hc := hd.space (hbefore c (List.mem_cons_self ..))
      rw [← (List.cons_prefix_cons.mp hprefix).1] at hc
      exact absurd hc (by decide)
  · rw [if_pos]
    · rfl
    · refine ⟨?_, List.prefix_append _ _⟩
      simp only [List.length_append, List.length_cons]
      omega

theorem bufferSkipWhitespace_idem (s : List UInt8) :
    bufferSkipWhitespace (bufferSkipWhitespace s) = bufferSkipWhitespace s := by
  cases hs : bufferSkipWhitespace s with
  | nil => rfl
  | cons b u =>
    have hb := dropWhile_head (· ≤ 32) s b (by rw [show s.dropWhile (· ≤ 32) = b :: u from hs]; rfl)
    unfold bufferSkipWhitespace
    rw [List.dropWhile_cons_of_neg (by rw [hb]; decide)]

theorem parseElements_skip (fuel depth : Nat) (s : List UInt8) :
    parseElements fuel depth (bufferSkipWhitespace s) = parseElements fuel depth s := by
  rw [parseElements.eq_def, parseElements.eq_def]
  cases fuel with
  | zero => rfl
  | succ fuel => simp only [bufferSkipWhitespace_idem]

theorem parseMembers_skip (fuel depth : Nat) (s : List UInt8) :
    parseMembers fuel depth (bufferSkipWhitespace s) = parseMembers fuel depth s := by
  rw [parseMembers.eq_def, parseMembers.eq_def]
  cases fuel with
  | zero => rfl
  | succ fuel => simp only [bufferSkipWhitespace_idem]

theorem parseValue_deep {fuel depth : Nat} {b : UInt8} (hb : b = 91 ∨ b = 123) (hdepth : nestingLimit ≤ depth)
    (s : List UInt8) : parseValue (fuel + 1) depth (b :: s) = none := by
  obtain ⟨hnull, hfalse, htrue⟩ := not_name (b := b) s (by rcases hb with rfl | rfl <;> decide)
  rw [parseValue.eq_def]
  simp only [if_neg hnull, if_neg hfalse, if_neg htrue]
  rcases hb with rfl | rfl
  · simp [hdepth, isdigit]
  · simp [hdepth, isdigit]

/-- What stands behind the bracket, where it is not the other one, is read from there. -/
theorem parseValue_array {fuel depth : Nat} {b : UInt8} {s u : List UInt8} (hdepth : depth < nestingLimit)
    (hs : bufferSkipWhitespace s = b :: u) (hb : b ≠ 93) : parseValue (fuel + 1) depth (91 :: s) =
      (parseElements fuel (depth + 1) s).map fun d => (.array d.1, d.2) := by
  obtain ⟨hnull, hfalse, htrue⟩ := not_name (b := 91) s (by decide)
  rw [← parseElements_skip fuel (depth + 1) s, parseValue.eq_def]
  simp only [if_neg hnull, if_neg hfalse, if_neg htrue]
  simp [not_le.mpr hdepth, hs, hb, isdigit]

theorem parseValue_object {fuel depth : Nat} {b : UInt8} {s u : List UInt8} (hdepth : depth < nestingLimit)
    (hs : bufferSkipWhitespace s = b :: u) (hb : b ≠ 125) : parseValue (fuel + 1) depth (123 :: s) =
      (parseMembers fuel (depth + 1) s).map fun d => (.object d.1, d.2) := by
  obtain ⟨hnull, hfalse, htrue⟩ := not_name (b := 123) s (by decide)
  rw [← parseMembers_skip fuel (depth + 1) s, parseValue.eq_def]
  simp only [if_neg hnull, if_neg hfalse, if_neg htrue]
  simp [not_le.mpr hdepth, hs, hb, isdigit]

theorem Elements.head (hd : d.Readable) {depth : Nat} {text : List UInt8} {child : List CJson}
    (h : Elements d depth text child) (s : List UInt8) : ∃ b u, bufferSkipWhitespace (text ++ s) = b :: u ∧ b ≠ 93 := by
  cases h with
  | last _ before text after item hbefore h =>
    obtain ⟨b, u, hu, _, hb, _⟩ := h.first hd.head
    refine ⟨b, u ++ (after ++ s), ?_, hb⟩
    rw [List.append_assoc, List.append_assoc, bufferSkipWhitespace_text hd hbefore h, hu]
    rfl
  | more d d' before text after texts item child hbefore h =>
    obtain ⟨b, u, hu, _, hb, _⟩ := h.first hd.head
    refine ⟨b, u ++ ((after ++ 44 :: texts) ++ s), ?_, hb⟩
    rw [List.append_assoc, List.append_assoc, bufferSkipWhitespace_text hd hbefore h, hu]
    rfl

theorem Member.head (hd : d.Readable) {depth : Nat} {text : List UInt8} {member : List UInt8 × CJson}
    (h : Member d depth text member) (s : List UInt8) : ∃ u, bufferSkipWhitespace (text ++ s) = 34 :: u := by
  cases h with
  | mk _ before text name colon space value after item hbefore =>
    rw [List.append_assoc, List.cons_append]
    exact ⟨_, bufferSkipWhitespace_blank hd hbefore (by decide) _⟩

theorem Members.head (hd : d.Readable) {depth : Nat} {text : List UInt8} {child : List (List UInt8 × CJson)}
    (h : Members d depth text child) (s : List UInt8) :
    ∃ b u, bufferSkipWhitespace (text ++ s) = b :: u ∧ b ≠ 125 := by
  cases h with
  | last _ _ _ h =>
    obtain ⟨u, hu⟩ := h.head hd s
    exact ⟨34, u, hu, by decide⟩
  | more _ _ text texts _ _ h =>
    obtain ⟨u, hu⟩ := h.head hd ((44 :: texts) ++ s)
    exact ⟨34, u, by rw [List.append_assoc]; exact hu, by decide⟩

/-! ### How values are read -/

/-- On so much fuel a value is read to its end, unless it is nested too deep. -/
def ReadsText (d : Dialect) (fuel : Nat) : Prop := ∀ {depth below : Nat} {text rest : List UInt8} {item : CJson},
  Text d depth text item → Stops item rest → 2 * text.length ≤ fuel → below ≤ nestingLimit →
    parseValue fuel below (text ++ rest) = if below + depth ≤ nestingLimit then some (item, rest) else none

def ReadsElements (d : Dialect) (fuel : Nat) : Prop :=
  ∀ {depth below : Nat} {text rest : List UInt8} {child : List CJson},
    Elements d depth text child → 2 * text.length < fuel → below ≤ nestingLimit →
      parseElements fuel below (text ++ 93 :: rest) =
        if below + depth ≤ nestingLimit then some (child, rest) else none

def ReadsMembers (d : Dialect) (fuel : Nat) : Prop :=
  ∀ {depth below : Nat} {text rest : List UInt8} {child : List (List UInt8 × CJson)},
    Members d depth text child → 2 * text.length < fuel → below ≤ nestingLimit →
      parseMembers fuel below (text ++ 125 :: rest) =
        if below + depth ≤ nestingLimit then some (child, rest) else none

theorem readsText_succ (hd : d.Readable) {fuel : Nat} (hElements : ReadsElements d fuel)
    (hMembers : ReadsMembers d fuel) : ReadsText d (fuel + 1) := by
  intro depth below text rest item h hstops hfuel hbelow
  have hflat : ∀ v : Option (CJson × List UInt8), (if below + 0 ≤ nestingLimit then v else none) = v :=
    fun v => if_pos hbelow
  cases h with
  | null => rw [hflat, parseValue_iff.mpr (.null rest)]
  | false => rw [hflat, parseValue_iff.mpr (.false rest)]
  | true => rw [hflat, parseValue_iff.mpr (.true rest)]
  | number _ x h =>
    obtain ⟨b, s, rfl, hb⟩ := hd.head _ _ h
    rw [hflat]
    exact parseValue_iff.mpr (.number hb (hd.numeral h hstops))
  | string text out h =>
    rw [hflat, List.cons_append, List.append_assoc]
    exact parseValue_iff.mpr (.string (hd.literal h rest))
  | emptyArray blank hblank =>
    rw [List.cons_append, List.append_assoc]
    by_cases hdepth : below < nestingLimit
    · rw [if_pos (Nat.succ_le_of_lt hdepth)]
      exact parseValue_iff.mpr (.emptyArray hdepth (bufferSkipWhitespace_blank hd hblank (by decide) rest))
    · rw [if_neg fun h => hdepth (Nat.lt_of_succ_le h), parseValue_deep (.inl rfl) (not_lt.mp hdepth)]
  | array depth text child h =>
    rw [List.cons_append, List.append_assoc]
    by_cases hdepth : below < nestingLimit
    · obtain ⟨b, u, hu, hb⟩ := h.head hd ([93] ++ rest)
      rw [List.length_cons, List.length_append] at hfuel
      rw [parseValue_array hdepth hu hb]
      show (parseElements fuel (below + 1) (text ++ 93 :: rest)).map _ = _
      rw [hElements h (by omega) (Nat.succ_le_of_lt hdepth), Nat.succ_add_eq_add_succ]
      split
      · rfl
      · rfl
    · rw [if_neg fun h => hdepth (by omega), parseValue_deep (.inl rfl) (not_lt.mp hdepth)]
  | emptyObject blank hblank =>
    rw [List.cons_append, List.append_assoc]
    by_cases hdepth : below < nestingLimit
    · rw [if_pos (Nat.succ_le_of_lt hdepth)]
      exact parseValue_iff.mpr (.emptyObject hdepth (bufferSkipWhitespace_blank hd hblank (by decide) rest))
    · rw [if_neg fun h => hdepth (Nat.lt_of_succ_le h), parseValue_deep (.inr rfl) (not_lt.mp hdepth)]
  | object depth text child h =>
    rw [List.cons_append, List.append_assoc]
    by_cases hdepth : below < nestingLimit
    · obtain ⟨b, u, hu, hb⟩ := h.head hd ([125] ++ rest)
      rw [List.length_cons, List.length_append] at hfuel
      rw [parseValue_object hdepth hu hb]
      show (parseMembers fuel (below + 1) (text ++ 125 :: rest)).map _ = _
      rw [hMembers h (by omega) (Nat.succ_le_of_lt hdepth), Nat.succ_add_eq_add_succ]
      split
      · rfl
      · rfl
    · rw [if_neg fun h => hdepth (by omega), parseValue_deep (.inr rfl) (not_lt.mp hdepth)]

theorem readsElements_succ (hd : d.Readable) {fuel : Nat} (hText : ReadsText d fuel)
    (hElements : ReadsElements d fuel) : ReadsElements d (fuel + 1) := by
  intro depth below text rest child h hfuel hbelow
  cases h with
  | last _ before text after item hbefore h hafter =>
    simp only [List.length_append] at hfuel
    rw [parseElements.eq_def]
    simp only [List.append_assoc, bufferSkipWhitespace_text hd hbefore h,
      hText h (stops_blank hd (b := 93) hafter (by decide) item rest) (by omega) hbelow]
    by_cases hin : below + depth ≤ nestingLimit
    · simp only [if_pos hin, bufferSkipWhitespace_blank hd (b := 93) hafter (by decide)]
    · simp only [if_neg hin]
  | more depth depth' before text after texts item child hbefore h hafter hmore =>
    simp only [List.length_append, List.length_cons] at hfuel
    rw [parseElements.eq_def]
    simp only [List.append_assoc, List.cons_append, bufferSkipWhitespace_text hd hbefore h,
      hText h (stops_blank hd (b := 44) hafter (by decide) item (texts ++ 93 :: rest)) (by omega) hbelow]
    by_cases hin : below + depth ≤ nestingLimit
    · have hread := @hElements depth' below texts rest child hmore (by omega) hbelow
      simp only [if_pos hin, bufferSkipWhitespace_blank hd (b := 44) hafter (by decide), hread]
      by_cases hin' : below + depth' ≤ nestingLimit
      · rw [if_pos hin', if_pos (by omega)]
        rfl
      · rw [if_neg hin', if_neg (by omega)]
        rfl
    · simp only [if_neg hin]
      rw [if_neg (by omega)]

/-- A name, its colon and its value are read one after the other. -/
theorem Member.read (hd : d.Readable) {fuel : Nat} (hText : ReadsText d fuel) {depth below : Nat}
    {text : List UInt8} {member : List UInt8 × CJson} (h : Member d depth text member) (hfuel : 2 * text.length ≤ fuel)
    (hbelow : below ≤ nestingLimit) {c : UInt8} (hc : 32 < c) (hnumber : isNumberChar c = false) (rest : List UInt8) :
    ∃ u v w, parseString (bufferSkipWhitespace (text ++ c :: rest)) = some (member.1, u) ∧
      bufferSkipWhitespace u = 58 :: v ∧ bufferSkipWhitespace w = c :: rest ∧
        parseValue fuel below (bufferSkipWhitespace v) =
          if below + depth ≤ nestingLimit then some (member.2, w) else none := by
  cases h with
  | mk _ before text name colon space value after item hbefore hname hcolon hspace h hafter =>
    simp only [List.length_append, List.length_cons] at hfuel
    refine ⟨colon ++ 58 :: (space ++ (value ++ (after ++ c :: rest))), space ++ (value ++ (after ++ c :: rest)),
      after ++ c :: rest, ?_, bufferSkipWhitespace_blank hd hcolon (by decide) _,
      bufferSkipWhitespace_blank hd hafter hc rest, ?_⟩
    · simp only [List.append_assoc, List.cons_append, bufferSkipWhitespace_blank hd (b := 34) hbefore (by decide)]
      exact hd.literal hname _
    · rw [bufferSkipWhitespace_text hd hspace h]
      exact hText h (stops_blank hd hafter hnumber item rest) (by omega) hbelow

theorem readsMembers_succ (hd : d.Readable) {fuel : Nat} (hText : ReadsText d fuel)
    (hMembers : ReadsMembers d fuel) : ReadsMembers d (fuel + 1) := by
  intro depth below text rest child h hfuel hbelow
  cases h with
  | last _ text member h =>
    obtain ⟨u, v, w, hname, hcolon, hafter, hvalue⟩ := h.read hd hText (by omega) hbelow
      (by decide : (32 : UInt8) < 125) (by decide) rest
    rw [parseMembers.eq_def]
    simp only [hname, hcolon, hvalue]
    by_cases hin : below + depth ≤ nestingLimit
    · simp only [if_pos hin, hafter]
    · simp only [if_neg hin]
  | more depth depth' text texts member child h hmore =>
    simp only [List.length_append, List.length_cons] at hfuel
    obtain ⟨u, v, w, hname, hcolon, hafter, hvalue⟩ := h.read hd hText (by omega) hbelow
      (by decide : (32 : UInt8) < 44) (by decide) (texts ++ 125 :: rest)
    rw [parseMembers.eq_def]
    simp only [List.append_assoc, List.cons_append, hname, hcolon, hvalue]
    by_cases hin : below + depth ≤ nestingLimit
    · have hread := @hMembers depth' below texts rest child hmore (by omega) hbelow
      simp only [if_pos hin, hafter, hread]
      by_cases hin' : below + depth' ≤ nestingLimit
      · rw [if_pos hin', if_pos (by omega)]
        rfl
      · rw [if_neg hin', if_neg (by omega)]
        rfl
    · simp only [if_neg hin]
      rw [if_neg (by omega)]

theorem reads_text (hd : d.Readable) (fuel : Nat) : ReadsText d fuel ∧ ReadsElements d fuel ∧ ReadsMembers d fuel := by
  induction fuel with
  | zero =>
    refine ⟨fun h _ hfuel => ?_, fun _ hfuel => ?_, fun _ hfuel => ?_⟩
    · obtain ⟨b, s, rfl, _⟩ := h.first hd.head
      cases hfuel
    · cases hfuel
    · cases hfuel
  | succ fuel ih =>
    obtain ⟨hText, hElements, hMembers⟩ := ih
    exact ⟨readsText_succ hd hElements hMembers, readsElements_succ hd hText hElements,
      readsMembers_succ hd hText hMembers⟩

end Reading

/-! ### Documents -/

/-- A document is a value with white space around it; a byte order mark may be in front. -/
structure Document (depth : Nat) (document : List UInt8) (item : CJson) : Prop where
  text : ∃ mark before text after, (mark = [] ∨ mark = [0xEF, 0xBB, 0xBF]) ∧ Blank before ∧
    Text (json Copied) depth text item ∧ Blank after ∧ document = mark ++ (before ++ (text ++ after))

/-- The value is read, and white space is left behind it. -/
theorem Document.parseWithOpts_eq {depth : Nat} {document : List UInt8} {item : CJson}
    (h : Document depth document item) : ∃ after, Blank after ∧
      parseWithOpts document = if depth ≤ nestingLimit then some (item, after) else none := by
  obtain ⟨mark, before, text, after, hmark, hbefore, htext, hafter, rfl⟩ := h.text
  have hstops : Stops item after := by
    cases item with
    | number x =>
      intro b hb
      rcases hafter b (List.mem_of_mem_head? hb) with rfl | rfl | rfl | rfl <;> decide
    | _ => trivial
  have hfuel : 2 * text.length ≤ parseFuel (text ++ after) := by
    rw [parseFuel, List.length_append]
    omega
  have hread := (reads_text readable_copied (parseFuel (text ++ after))).1 htext hstops hfuel (Nat.zero_le _)
  refine ⟨after, hafter, ?_⟩
  unfold parseWithOpts
  simp only [skipUtf8Bom_text readable_copied hmark hbefore htext,
    bufferSkipWhitespace_text readable_copied hbefore htext after, hread, Nat.zero_add]

theorem Document.parse_eq {depth : Nat} {document : List UInt8} {item : CJson} (h : Document depth document item) :
    cJSONParse document = if depth ≤ nestingLimit then some item else none := by
  obtain ⟨after, _, hparse⟩ := h.parseWithOpts_eq
  rw [cJSONParse_eq, hparse]
  split
  · rfl
  · rfl

/-! ### No NUL -/

theorem Blank.no_nul {s : List UInt8} (h : Blank s) : 0 ∉ s := by
  intro h0
  rcases h 0 h0 with h | h | h | h <;> cases h

mutual

theorem Text.no_nul {depth : Nat} {text : List UInt8} {item : CJson} (h : Text (json Copied) depth text item) :
    0 ∉ text := by
  cases h with
  | null => decide
  | false => decide
  | true => decide
  | number _ x h => exact h.numeral.no_nul
  | string text out h =>
    obtain ⟨chars, hchars, _⟩ := h
    simp [hchars.no_nul]
  | emptyArray blank hblank => simp [Blank.no_nul hblank]
  | array depth text child h => simp [Elements.no_nul h]
  | emptyObject blank hblank => simp [Blank.no_nul hblank]
  | object depth text child h => simp [Members.no_nul h]

theorem Elements.no_nul {depth : Nat} {text : List UInt8} {child : List CJson}
    (h : Elements (json Copied) depth text child) : 0 ∉ text := by
  cases h with
  | last _ before text after item hbefore h hafter => simp [Blank.no_nul hbefore, Text.no_nul h, Blank.no_nul hafter]
  | more _ _ before text after texts item child hbefore h hafter hmore =>
    simp [Blank.no_nul hbefore, Text.no_nul h, Blank.no_nul hafter, Elements.no_nul hmore]

theorem Member.no_nul {depth : Nat} {text : List UInt8} {member : List UInt8 × CJson}
    (h : Member (json Copied) depth text member) : 0 ∉ text := by
  cases h with
  | mk _ before text name colon space value after item hbefore hname hcolon hspace h hafter =>
    obtain ⟨chars, hchars, _⟩ := hname
    simp [Blank.no_nul hbefore, hchars.no_nul, Blank.no_nul hcolon, Blank.no_nul hspace, Text.no_nul h,
      Blank.no_nul hafter]

theorem Members.no_nul {depth : Nat} {text : List UInt8} {child : List (List UInt8 × CJson)}
    (h : Members (json Copied) depth text child) : 0 ∉ text := by
  cases h with
  | last _ text member h => exact Member.no_nul h
  | more _ _ text texts member child h hmore => simp [Member.no_nul h, Members.no_nul hmore]

end

theorem Document.no_nul {depth : Nat} {document : List UInt8} {item : CJson} (h : Document depth document item) :
    0 ∉ document := by
  obtain ⟨mark, before, text, after, hmark, hbefore, htext, hafter, rfl⟩ := h.text
  rcases hmark with rfl | rfl <;> simp [hbefore.no_nul, htext.no_nul, hafter.no_nul]

theorem Document.cstr_eq {depth : Nat} {document : List UInt8} {item : CJson} (h : Document depth document item)
    (rest : List UInt8) : cstr (document ++ 0 :: rest) = document :=
  cstr_append_zero (fun _ hb h0 => h.no_nul (h0 ▸ hb)) rest

/-! ### JSON texts -/

section Mono
variable {numeral numeral' : List UInt8 → Double → Prop} {k : Nat}

mutual

/-- A text of at most `k` bytes may be written with other numerals that include its own. -/
theorem Text.mono (himp : ∀ t x, t.length ≤ k → numeral t x → numeral' t x) {depth : Nat} {text : List UInt8}
    {item : CJson} (h : Text (json numeral) depth text item) (hk : text.length ≤ k) :
    Text (json numeral') depth text item := by
  cases h with
  | null => exact .null
  | false => exact .false
  | true => exact .true
  | number _ x h => exact .number _ x (himp _ x hk h)
  | string text out h => exact .string text out h
  | emptyArray blank hblank => exact .emptyArray blank hblank
  | array depth text child h =>
    simp only [List.length_cons, List.length_append] at hk
    exact .array depth text child (Elements.mono himp h (by omega))
  | emptyObject blank hblank => exact .emptyObject blank hblank
  | object depth text child h =>
    simp only [List.length_cons, List.length_append] at hk
    exact .object depth text child (Members.mono himp h (by omega))

theorem Elements.mono (himp : ∀ t x, t.length ≤ k → numeral t x → numeral' t x) {depth : Nat} {text : List UInt8}
    {child : List CJson} (h : Elements (json numeral) depth text child) (hk : text.length ≤ k) :
    Elements (json numeral') depth text child := by
  cases h with
  | last _ before text after item hbefore h hafter =>
    simp only [List.length_append] at hk
    exact .last _ _ _ _ _ hbefore (Text.mono himp h (by omega)) hafter
  | more _ _ before text after texts item child hbefore h hafter hmore =>
    simp only [List.length_append, List.length_cons] at hk
    exact .more _ _ _ _ _ _ _ _ hbefore (Text.mono himp h (by omega)) hafter
      (Elements.mono himp hmore (by omega))

theorem Member.mono (himp : ∀ t x, t.length ≤ k → numeral t x → numeral' t x) {depth : Nat} {text : List UInt8}
    {member : List UInt8 × CJson} (h : Member (json numeral) depth text member) (hk : text.length ≤ k) :
    Member (json numeral') depth text member := by
  cases h with
  | mk _ before text name colon space value after item hbefore hname hcolon hspace h hafter =>
    simp only [List.length_append, List.length_cons] at hk
    exact .mk _ _ _ _ _ _ _ _ _ hbefore hname hcolon hspace (Text.mono himp h (by omega)) hafter

theorem Members.mono (himp : ∀ t x, t.length ≤ k → numeral t x → numeral' t x) {depth : Nat} {text : List UInt8}
    {child : List (List UInt8 × CJson)} (h : Members (json numeral) depth text child) (hk : text.length ≤ k) :
    Members (json numeral') depth text child := by
  cases h with
  | last _ text member h => exact .last _ _ _ (Member.mono himp h hk)
  | more _ _ text texts member child h hmore =>
    simp only [List.length_append, List.length_cons] at hk
    exact .more _ _ _ _ _ _ (Member.mono himp h (by omega)) (Members.mono himp hmore (by omega))

end

mutual

/-- Each array and each object has two brackets. -/
theorem Text.depth_le {depth : Nat} {text : List UInt8} {item : CJson} (h : Text (json numeral) depth text item) :
    depth ≤ text.length := by
  cases h with
  | null => exact Nat.zero_le _
  | false => exact Nat.zero_le _
  | true => exact Nat.zero_le _
  | number _ x h => exact Nat.zero_le _
  | string text out h => exact Nat.zero_le _
  | emptyArray blank hblank =>
    simp only [List.length_cons]
    omega
  | array depth text child h =>
    have := Elements.depth_le h
    simp only [List.length_cons, List.length_append]
    omega
  | emptyObject blank hblank =>
    simp only [List.length_cons]
    omega
  | object depth text child h =>
    have := Members.depth_le h
    simp only [List.length_cons, List.length_append]
    omega

theorem Elements.depth_le {depth : Nat} {text : List UInt8} {child : List CJson}
    (h : Elements (json numeral) depth text child) : depth ≤ text.length := by
  cases h with
  | last _ before text after item hbefore h hafter =>
    have := Text.depth_le h
    simp only [List.length_append]
    omega
  | more _ _ before text after texts item child hbefore h hafter hmore =>
    have := Text.depth_le h
    have := Elements.depth_le hmore
    simp only [List.length_append, List.length_cons]
    omega

theorem Member.depth_le {depth : Nat} {text : List UInt8} {member : List UInt8 × CJson}
    (h : Member (json numeral) depth text member) : depth ≤ text.length := by
  cases h with
  | mk _ before text name colon space value after item hbefore hname hcolon hspace h hafter =>
    have := Text.depth_le h
    simp only [List.length_append, List.length_cons]
    omega

theorem Members.depth_le {depth : Nat} {text : List UInt8} {child : List (List UInt8 × CJson)}
    (h : Members (json numeral) depth text child) : depth ≤ text.length := by
  cases h with
  | last _ text member h => exact Member.depth_le h
  | more _ _ text texts member child h hmore =>
    have := Member.depth_le h
    have := Members.depth_le hmore
    simp only [List.length_append, List.length_cons]
    omega

end

end Mono

/-- A JSON text is one value, with JSON's own numerals, and white space around it. -/
structure JsonText (depth : Nat) (document : List UInt8) (item : CJson) : Prop where
  text : ∃ before text after, Blank before ∧ Text (json Strict) depth text item ∧ Blank after ∧
    document = before ++ (text ++ after)

theorem JsonText.first {depth : Nat} {document : List UInt8} {item : CJson} (h : JsonText depth document item) :
    ∃ b s, document = b :: s ∧ (32 < b ∨ b = 32 ∨ b = 9 ∨ b = 10 ∨ b = 13) := by
  obtain ⟨before, text, after, hbefore, htext, _, rfl⟩ := h.text
  have hheaded : (json Strict).Headed := fun _ _ hstrict => hstrict.numeral.loose.head
  obtain ⟨b, s, rfl, hb, _⟩ := htext.first hheaded
  cases before with
  | nil => exact ⟨b, _, rfl, .inl hb⟩
  | cons c before => exact ⟨c, _, rfl, .inr (hbefore c (List.mem_cons_self ..))⟩

theorem JsonText.depth_le {depth : Nat} {document : List UInt8} {item : CJson} (h : JsonText depth document item) :
    depth ≤ document.length := by
  obtain ⟨before, text, after, _, htext, _, rfl⟩ := h.text
  have := htext.depth_le
  simp only [List.length_append]
  omega

/-- A short one is a document. -/
theorem JsonText.document {depth : Nat} {document : List UInt8} {item : CJson} (h : JsonText depth document item)
    (hshort : document.length ≤ 63) : Document depth document item := by
  obtain ⟨before, text, after, hbefore, htext, hafter, rfl⟩ := h.text
  simp only [List.length_append] at hshort
  have hcopied : Text (json Copied) depth text item :=
    htext.mono (fun t x hlength hstrict => ⟨hstrict.numeral, hlength⟩) (by omega : text.length ≤ 63)
  exact ⟨[], before, text, after, .inl rfl, hbefore, hcopied, hafter, rfl⟩

/-- **A document is understood**: of an array that holds it, up to a NUL, `cJSON_Parse`
makes the value that it is the text of, where its arrays and objects are nested no
deeper than the limit, and nothing where they are. -/
theorem cJSONParse_document {depth : Nat} {document : List UInt8} {item : CJson} (h : Document depth document item)
    (rest : List UInt8) :
    cJSONParse (cstr (document ++ 0 :: rest)) = if depth ≤ nestingLimit then some item else none := by
  rw [h.cstr_eq]
  exact h.parse_eq

/-- An array in an array, and a letter that is written by its number. -/
theorem cJSONParse_nested : cJSONParse (cstr (bytes "[\"\\u0041\", [ ]]" ++ 0 :: [93])) =
    some (.array [.string (utf8 ['A']), .array []]) := by
  have hblank : Blank [] := fun _ hb => absurd hb List.not_mem_nil
  have hspace : Blank [32] := List.forall_mem_singleton.mpr (.inl rfl)
  have hletter : Literal _ ['A'] :=
    .cons _ [] 'A' [] (.unit (bytes "0041") 'A' ⟨48, 48, 52, 49, 0, 0, 4, 1, by decide⟩) .nil
  have helements : Elements (json Copied) _ _ _ := .more 0 1 [] _ [] _ _ _ hblank (.string _ _ ⟨_, hletter, rfl⟩) hblank
    (.last 1 [32] _ [] _ hspace (.emptyArray [32] hspace) hblank)
  have h : Document 2 (bytes "[\"\\u0041\", [ ]]") _ :=
    ⟨[], [], _, [], .inl rfl, hblank, .array _ _ _ helements, hblank, by decide +kernel⟩
  exact (cJSONParse_document h [93]).trans (if_pos (by decide))

end Rinha.Json
