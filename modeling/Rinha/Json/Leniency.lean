import Rinha.Json.Documents

/-! What `cJSON_Parse` takes for an object.

It passes over any byte up to the space as over white space, reads numerals as `strtod`
does, takes a string's bytes as they are, and leaves what stands behind the value
(`loose`). A text has an object at its front that `cJSON_Parse` finds if and only if it
begins with one that is written so (`parseWithOpts_iff`). -/
namespace Rinha.Json
open Library

/-! ### The dialect -/

/-- No quote but behind a backslash, which takes the byte behind it along. -/
inductive Unquoted : List UInt8 → Prop where
  | nil : Unquoted []
  | plain (b : UInt8) (s : List UInt8) (hquote : b ≠ 34) (hbackslash : b ≠ 92) (h : Unquoted s) : Unquoted (b :: s)
  | pair (b : UInt8) (s : List UInt8) (h : Unquoted s) : Unquoted (92 :: b :: s)

/-- What passes for JSON: zeros may be in front of a numeral, any byte but the quote and the
backslash may stand in a string, and escape sequences are what `parse_string` decodes. -/
def loose : Dialect where
  numeral text x := LooseNumeral text x ∧ text.length ≤ 63
  literal text out := Unquoted text ∧ unescape 0 text = some out
  space b := b ≤ 32

theorem Unquoted.scanLiteral_eq {text : List UInt8} (h : Unquoted text) (rest : List UInt8) :
    scanLiteral (text ++ 34 :: rest) = some (text, rest) := by
  induction h with
  | nil =>
    cases rest with
    | nil => rfl
    | cons b rest => rfl
  | plain b s hquote hbackslash _ ih =>
    rw [← List.singleton_append, List.append_assoc, scanLiteral_plain (by simp [hquote, hbackslash]), ih]
    rfl
  | pair b s _ ih =>
    rw [List.cons_append, List.cons_append, scanLiteral_backslash, ih]
    rfl

theorem readable_loose : loose.Readable where
  head _ _ h := h.1.head
  numeral h := h.1.parseNumber_eq h.2
  literal h rest := by
    obtain ⟨hunquoted, hout⟩ := h
    simp only [parseString, hunquoted.scanLiteral_eq, hout, Option.map_some]
  space h := h

/-! ### What stands in front -/

theorem sign_cases (s : List UInt8) :
    (∃ t, s = 45 :: t ∧ sign s = (true, t)) ∨ (∃ t, s = 43 :: t ∧ sign s = (false, t)) ∨ sign s = (false, s) := by
  unfold sign
  split
  · exact .inl ⟨_, rfl, rfl⟩
  · exact .inr (.inl ⟨_, rfl, rfl⟩)
  · exact .inr (.inr rfl)

/-- The digits in front, and what is behind them. -/
theorem digits_split (s : List UInt8) :
    s = s.takeWhile isdigit ++ s.dropWhile isdigit ∧ ∀ b ∈ s.takeWhile isdigit, isdigit b = true :=
  ⟨List.takeWhile_append_dropWhile.symm, fun _ hb => List.mem_takeWhile_imp hb⟩

theorem exponent_split {s rest : List UInt8} {e : Int} (h : exponent s = (e, rest)) :
    ∃ text, s = text ++ rest ∧ Exponent text e := by
  have habsent : (0, s) = (e, rest) → ∃ text, s = text ++ rest ∧ Exponent text e := by
    intro heq
    cases heq
    exact ⟨[], rfl, .absent⟩
  unfold exponent at h
  split at h
  · cases h
    exact ⟨[], rfl, .absent⟩
  · rename_i b t
    split at h
    · rename_i hb
      simp only at h
      split at h
      · exact habsent h
      · rename_i hne
        obtain ⟨he, rfl⟩ := Prod.mk.inj h
        have hdigits : ∀ u : List UInt8, ∀ c ∈ u.takeWhile isdigit, isdigit c = true := fun u => (digits_split u).2
        rcases sign_cases t with ⟨u, rfl, hsign⟩ | ⟨u, rfl, hsign⟩ | hsign
        · rw [hsign] at hne he ⊢
          exact ⟨b :: 45 :: u.takeWhile isdigit, by simp [List.takeWhile_append_dropWhile],
            he ▸ .minus b _ hb hne (hdigits u)⟩
        · rw [hsign] at hne he ⊢
          exact ⟨b :: 43 :: u.takeWhile isdigit, by simp [List.takeWhile_append_dropWhile],
            he ▸ .plus b _ hb hne (hdigits u)⟩
        · rw [hsign] at hne he ⊢
          exact ⟨b :: t.takeWhile isdigit, by simp [List.takeWhile_append_dropWhile],
            he ▸ .unsigned b _ hb hne (hdigits t)⟩
    · exact habsent h

/-- What `strtod` reads from a minus or a digit on. -/
theorem strtod_split {s rest : List UInt8} {x : Double} (hs : ∃ b ∈ s.head?, b = 45 ∨ isdigit b = true)
    (h : strtod s = some (x, rest)) : ∃ text, s = text ++ rest ∧ LooseNumeral text x := by
  obtain ⟨neg, u, hsign, rfl, hfront⟩ : ∃ neg u, sign s = (neg, u) ∧ s = (if neg then [45] else []) ++ u ∧
      (neg = true ∨ u.takeWhile isdigit ≠ []) := by
    obtain ⟨b, hb, hfirst⟩ := hs
    rcases sign_cases s with ⟨u, rfl, hsign⟩ | ⟨u, rfl, hsign⟩ | hsign
    · exact ⟨true, u, hsign, rfl, .inl rfl⟩
    · cases hb
      rcases hfirst with hfirst | hfirst <;> cases hfirst
    · refine ⟨false, s, hsign, rfl, .inr ?_⟩
      cases s with
      | nil => cases hb
      | cons c s =>
        cases hb
        rcases hfirst with rfl | hfirst
        · cases hsign
        · rw [List.takeWhile_cons_of_pos hfirst]
          exact List.cons_ne_nil _ _
  obtain ⟨hsplit, hdigits⟩ := digits_split u
  have hread : ∀ point fraction v, (point = [46] ∨ (point = [] ∧ fraction = [])) → (∀ b ∈ fraction, isdigit b = true) →
      u.dropWhile isdigit = point ++ (fraction ++ v) → ¬ (u.takeWhile isdigit = [] ∧ fraction = []) →
        some (ofDecimal neg (number (u.takeWhile isdigit ++ fraction)) ((exponent v).1 - fraction.length),
            (exponent v).2) = some (x, rest) →
          ∃ text, (if neg then [45] else []) ++ u = text ++ rest ∧ LooseNumeral text x := by
    intro point fraction v hpoint hfraction hdrop hne hread
    obtain ⟨⟨e, r⟩, he⟩ : ∃ er, exponent v = er := ⟨_, rfl⟩
    obtain ⟨exponentText, hv, hexponent⟩ := exponent_split he
    rw [he] at hread
    obtain ⟨rfl, rfl⟩ := Prod.mk.inj (Option.some.inj hread)
    refine ⟨_, ?_, .mk neg _ point fraction exponentText _ (List.forall_mem_append.mpr ⟨hdigits, hfraction⟩) ?_ hfront
      hpoint hexponent⟩
    · conv_lhs => rw [hsplit, hdrop, hv]
      simp only [List.append_assoc]
    · rw [Ne, List.append_eq_nil_iff]
      exact hne
  unfold strtod at h
  simp only [hsign] at h
  split at h
  · rename_i t ht
    obtain ⟨hsplit', hdigits'⟩ := digits_split t
    split at h
    · cases h
    · rename_i hne
      exact hread [46] _ _ (.inl rfl) hdigits' (by rw [ht, List.singleton_append, ← hsplit']) hne h
  · split at h
    · cases h
    · rename_i hne
      exact hread [] [] _ (.inr ⟨rfl, rfl⟩) (fun _ hb => absurd hb List.not_mem_nil) rfl hne h

theorem parseNumber_split {b : UInt8} {s rest : List UInt8} {x : Double} (hb : b = 45 ∨ isdigit b = true)
    (h : parseNumber (b :: s) = some (.number x, rest)) : ∃ text, b :: s = text ++ rest ∧ loose.numeral text x := by
  have hcopied : ((b :: s).take 63).takeWhile isNumberChar = b :: (s.take 62).takeWhile isNumberChar := by
    have hnumber : isNumberChar b = true := by
      rcases hb with rfl | hb
      · decide
      · exact isNumberChar_digit hb
    rw [List.take_succ_cons, List.takeWhile_cons_of_pos hnumber]
  obtain ⟨u, hu⟩ : ((b :: s).take 63).takeWhile isNumberChar <+: b :: s :=
    (List.takeWhile_prefix _).trans (List.take_prefix ..)
  have hlength : (((b :: s).take 63).takeWhile isNumberChar).length ≤ 63 :=
    (List.takeWhile_prefix _).length_le.trans (List.length_take_le ..)
  have hhead : ∃ c ∈ (((b :: s).take 63).takeWhile isNumberChar).head?, c = 45 ∨ isdigit c = true :=
    ⟨b, by rw [hcopied]; rfl, hb⟩
  unfold parseNumber at h
  simp only at h
  generalize ((b :: s).take 63).takeWhile isNumberChar = copied at *
  split at h
  · cases h
  · rename_i y rest' hstrtod
    cases h
    obtain ⟨text, rfl, hloose⟩ := strtod_split hhead hstrtod
    rw [List.length_append] at hlength
    refine ⟨text, ?_, hloose, by omega⟩
    rw [← hu, List.length_append, Nat.add_sub_cancel, List.append_assoc, List.drop_left]

theorem scanLiteral_split {s lit rest : List UInt8} (h : scanLiteral s = some (lit, rest)) :
    s = lit ++ 34 :: rest ∧ Unquoted lit := by
  induction s using scanLiteral.induct generalizing lit with
  | case1 => cases h
  | case2 =>
    cases h
    exact ⟨rfl, .nil⟩
  | case3 b hb =>
    simp only [scanLiteral, if_neg hb] at h
    cases h
  | case4 c s =>
    cases h
    exact ⟨rfl, .nil⟩
  | case5 c s hb ih =>
    rw [scanLiteral, if_neg hb, if_pos rfl, Option.map_eq_some_iff] at h
    obtain ⟨⟨lit', rest'⟩, hscan, heq⟩ := h
    cases heq
    obtain ⟨rfl, hunquoted⟩ := ih hscan
    exact ⟨rfl, .pair c lit' hunquoted⟩
  | case6 b c s hb hb' ih =>
    rw [scanLiteral, if_neg hb, if_neg hb', Option.map_eq_some_iff] at h
    obtain ⟨⟨lit', rest'⟩, hscan, heq⟩ := h
    cases heq
    obtain ⟨hs, hunquoted⟩ := ih hscan
    exact ⟨by rw [hs]; rfl, .plain b lit' hb hb' hunquoted⟩

theorem parseString_split {s out rest : List UInt8} (h : parseString s = some (out, rest)) :
    ∃ text, s = 34 :: (text ++ 34 :: rest) ∧ loose.literal text out := by
  unfold parseString at h
  split at h
  · split at h
    · cases h
    · rename_i lit rest' hscan
      obtain ⟨out', hout, heq⟩ := Option.map_eq_some_iff.mp h
      cases heq
      obtain ⟨rfl, hunquoted⟩ := scanLiteral_split hscan
      exact ⟨lit, rfl, hunquoted, hout⟩
  · cases h

/-! ### White space -/

theorem exists_blank (s : List UInt8) : ∃ blank, loose.Blank blank ∧ s = blank ++ bufferSkipWhitespace s := by
  have hspace : ∀ b ∈ s.takeWhile (· ≤ 32), b ≤ 32 := by
    intro b hb
    simpa using List.mem_takeWhile_imp hb
  exact ⟨_, hspace, List.takeWhile_append_dropWhile.symm⟩

theorem Dialect.Blank.append {d : Dialect} {s t : List UInt8} (hs : d.Blank s) (ht : d.Blank t) : d.Blank (s ++ t) :=
  List.forall_mem_append.mpr ⟨hs, ht⟩

theorem Elements.blank {d : Dialect} {depth : Nat} {blank text : List UInt8} {child : List CJson}
    (hblank : d.Blank blank) (h : Elements d depth text child) : Elements d depth (blank ++ text) child := by
  cases h with
  | last _ before text after item hbefore h hafter =>
    rw [← List.append_assoc]
    exact .last _ _ _ _ _ (hblank.append hbefore) h hafter
  | more _ _ before text after texts item child hbefore h hafter hmore =>
    rw [← List.append_assoc]
    exact .more _ _ _ _ _ _ _ _ (hblank.append hbefore) h hafter hmore

theorem Member.blank {d : Dialect} {depth : Nat} {blank text : List UInt8} {member : List UInt8 × CJson}
    (hblank : d.Blank blank) (h : Member d depth text member) : Member d depth (blank ++ text) member := by
  cases h with
  | mk _ before text name colon space value after item hbefore hname hcolon hspace h hafter =>
    rw [← List.append_assoc]
    exact .mk _ _ _ _ _ _ _ _ _ (hblank.append hbefore) hname hcolon hspace h hafter

theorem Members.blank {d : Dialect} {depth : Nat} {blank text : List UInt8} {child : List (List UInt8 × CJson)}
    (hblank : d.Blank blank) (h : Members d depth text child) : Members d depth (blank ++ text) child := by
  cases h with
  | last _ _ _ h => exact .last _ _ _ (h.blank hblank)
  | more _ _ text texts _ _ h hmore =>
    rw [← List.append_assoc]
    exact .more _ _ _ _ _ _ (h.blank hblank) hmore

/-! ### Values -/

/-- What is read is written in the dialect, up to where the reading stops, and no deeper
than the limit leaves room for. -/
theorem loose_of_parse (fuel : Nat) :
    (∀ {depth s rest item}, parseValue fuel depth s = some (item, rest) → depth ≤ nestingLimit →
      ∃ text deep, s = text ++ rest ∧ Text loose deep text item ∧ depth + deep ≤ nestingLimit) ∧
    (∀ {depth s rest child}, parseElements fuel depth s = some (child, rest) → depth ≤ nestingLimit →
      ∃ text deep, s = text ++ 93 :: rest ∧ Elements loose deep text child ∧ depth + deep ≤ nestingLimit) ∧
    (∀ {depth s rest child}, parseMembers fuel depth s = some (child, rest) → depth ≤ nestingLimit →
      ∃ text deep, s = text ++ 125 :: rest ∧ Members loose deep text child ∧ depth + deep ≤ nestingLimit) := by
  induction fuel with
  | zero =>
    refine ⟨fun h => ?_, fun h => ?_, fun h => ?_⟩
    · rw [parseValue.eq_def] at h
      cases h
    · rw [parseElements.eq_def] at h
      cases h
    · rw [parseMembers.eq_def] at h
      cases h
  | succ fuel ih =>
    obtain ⟨ihValue, ihElements, ihMembers⟩ := ih
    refine ⟨?_, ?_, ?_⟩
    · intro depth s rest item h hdepth
      cases parseValue_iff.mp h with
      | null => exact ⟨_, 0, rfl, .null, hdepth⟩
      | false => exact ⟨_, 0, rfl, .false, hdepth⟩
      | true => exact ⟨_, 0, rfl, .true, hdepth⟩
      | string h =>
        obtain ⟨text, hs, hliteral⟩ := parseString_split h
        exact ⟨34 :: (text ++ [34]), 0, by simpa using hs, .string text _ hliteral, hdepth⟩
      | number hb h =>
        obtain ⟨x, rfl⟩ := parseNumber_number h
        obtain ⟨text, hs, hnumeral⟩ := parseNumber_split hb h
        exact ⟨text, 0, hs, .number text x hnumeral, hdepth⟩
      | @emptyArray s' _ hlimit h =>
        obtain ⟨blank, hblank, hs⟩ := exists_blank s'
        rw [h] at hs
        exact ⟨91 :: (blank ++ [93]), 1, by rw [hs]; simp, .emptyArray blank hblank, hlimit⟩
      | @array b s' u _ child hlimit hs hb h =>
        obtain ⟨blank, hblank, hs'⟩ := exists_blank s'
        obtain ⟨text, deep, htext, helements, hdeep⟩ := ihElements h hlimit
        rw [hs, htext] at hs'
        refine ⟨91 :: ((blank ++ text) ++ [93]), deep + 1, by rw [hs']; simp,
          .array _ _ _ (helements.blank hblank), ?_⟩
        omega
      | @emptyObject s' _ hlimit h =>
        obtain ⟨blank, hblank, hs⟩ := exists_blank s'
        rw [h] at hs
        exact ⟨123 :: (blank ++ [125]), 1, by rw [hs]; simp, .emptyObject blank hblank, hlimit⟩
      | @object b s' u _ child hlimit hs hb h =>
        obtain ⟨blank, hblank, hs'⟩ := exists_blank s'
        obtain ⟨text, deep, htext, hmembers, hdeep⟩ := ihMembers h hlimit
        rw [hs, htext] at hs'
        refine ⟨123 :: ((blank ++ text) ++ [125]), deep + 1, by rw [hs']; simp,
          .object _ _ _ (hmembers.blank hblank), ?_⟩
        omega
    · intro depth s rest child h hdepth
      obtain ⟨item, u, hvalue, hnext⟩ := parseElements_iff.mp h
      obtain ⟨text, deep, htext, hloose, hdeep⟩ := ihValue hvalue hdepth
      obtain ⟨before, hbefore, hs⟩ := exists_blank s
      obtain ⟨after, hafter, hu⟩ := exists_blank u
      rcases hnext with ⟨w, child', hw, hmore, rfl⟩ | ⟨hw, rfl⟩
      · obtain ⟨texts, deep', htexts, hloose', hdeep'⟩ := ihElements hmore hdepth
        refine ⟨_, max deep deep', ?_, .more deep deep' before text after texts _ _ hbefore hloose hafter hloose', ?_⟩
        · rw [hs, htext, hu, hw, htexts]
          simp
        · omega
      · refine ⟨_, deep, ?_, .last deep before text after _ hbefore hloose hafter, hdeep⟩
        rw [hs, htext, hu, hw]
        simp
    · intro depth s rest child h hdepth
      obtain ⟨name, item, u, v, w, hname, hv, hvalue, hnext⟩ := parseMembers_iff.mp h
      obtain ⟨nameText, hnameText, hliteral⟩ := parseString_split hname
      obtain ⟨text, deep, htext, hloose, hdeep⟩ := ihValue hvalue hdepth
      obtain ⟨before, hbefore, hs⟩ := exists_blank s
      obtain ⟨colon, hcolon, hu⟩ := exists_blank u
      obtain ⟨space, hspace, hv'⟩ := exists_blank v
      obtain ⟨after, hafter, hw⟩ := exists_blank w
      have hmember := Member.mk deep before nameText name colon space text after item hbefore hliteral hcolon hspace
        hloose hafter
      rcases hnext with ⟨x, child', hx, hmore, rfl⟩ | ⟨hx, rfl⟩
      · obtain ⟨texts, deep', htexts, hloose', hdeep'⟩ := ihMembers hmore hdepth
        refine ⟨_, max deep deep', ?_, .more deep deep' _ texts _ _ hmember hloose', ?_⟩
        · rw [hs, hnameText, hu, hv, hv', htext, hw, hx, htexts]
          simp
        · omega
      · refine ⟨_, deep, ?_, .last deep _ _ hmember, hdeep⟩
        rw [hs, hnameText, hu, hv, hv', htext, hw, hx]
        simp

/-! ### Objects at the front -/

/-- An object in the dialect, nested no deeper than the limit; white space and a byte order
mark may be in front. -/
structure LooseDocument (document : List UInt8) (child : List (List UInt8 × CJson)) : Prop where
  text : ∃ mark before text depth, (mark = [] ∨ mark = [0xEF, 0xBB, 0xBF]) ∧ loose.Blank before ∧
    Text loose depth text (.object child) ∧ depth ≤ nestingLimit ∧ document = mark ++ (before ++ text)

theorem exists_mark (s : List UInt8) :
    ∃ mark, (mark = [] ∨ mark = [0xEF, 0xBB, 0xBF]) ∧ s = mark ++ skipUtf8Bom s := by
  unfold skipUtf8Bom
  split
  · rename_i hbom
    obtain ⟨_, u, rfl⟩ := hbom
    exact ⟨_, .inr rfl, rfl⟩
  · exact ⟨[], .inl rfl, rfl⟩

/-- The objects that `cJSON_Parse` finds at the front of a text are those that are written there
in the dialect. -/
theorem parseWithOpts_iff {s rest : List UInt8} {child : List (List UInt8 × CJson)} :
    parseWithOpts s = some (.object child, rest) ↔ ∃ front, s = front ++ rest ∧ LooseDocument front child := by
  constructor
  · intro h
    obtain ⟨mark, hmark, hs⟩ := exists_mark s
    obtain ⟨before, hbefore, hskip⟩ := exists_blank (skipUtf8Bom s)
    obtain ⟨text, deep, htext, hobject, hdeep⟩ := (loose_of_parse _).1 h (Nat.zero_le _)
    refine ⟨mark ++ (before ++ text), ?_, ⟨mark, before, text, deep, hmark, hbefore, hobject, by omega, rfl⟩⟩
    rw [List.append_assoc, List.append_assoc, ← htext, ← hskip, ← hs]
  · rintro ⟨front, rfl, h⟩
    obtain ⟨mark, before, text, depth, hmark, hbefore, hobject, hdepth, rfl⟩ := h.text
    have hfuel : 2 * text.length ≤ parseFuel (text ++ rest) := by
      rw [parseFuel, List.length_append]
      omega
    have hstops : Stops (.object child) rest := trivial
    have hread := (reads_text readable_loose (parseFuel (text ++ rest))).1 hobject hstops hfuel (Nat.zero_le _)
    unfold parseWithOpts
    rw [List.append_assoc, List.append_assoc]
    simp only [skipUtf8Bom_text readable_loose hmark hbefore hobject,
      bufferSkipWhitespace_text readable_loose hbefore hobject rest, hread, Nat.zero_add, if_pos hdepth]

end Rinha.Json
