import Rinha.Json.CJsonProofs
import Rinha.Library.Utf8

/-! The numerals and strings that `cJSON_Parse` reads.

A numeral is digits with a point and an exponent, as JSON has it (`Numeral`) or as
`strtod` reads it (`LooseNumeral`). The text of a string spells characters one by one
(`Literal`), as they are or as escape sequences; of these the parser makes their UTF-8. -/
namespace Rinha.Json
open Library

/-! ### Numerals -/

/-- The text behind the whole part, and the digits in it. -/
inductive Fraction : List UInt8 → List UInt8 → Prop where
  | absent : Fraction [] []
  | present (digits : List UInt8) (hne : digits ≠ []) (hdigits : ∀ b ∈ digits, isdigit b = true) :
      Fraction (46 :: digits) digits

inductive Exponent : List UInt8 → Int → Prop where
  | absent : Exponent [] 0
  | unsigned (e : UInt8) (digits : List UInt8) (he : e = 101 ∨ e = 69) (hne : digits ≠ [])
      (hdigits : ∀ b ∈ digits, isdigit b = true) : Exponent (e :: digits) (number digits)
  | plus (e : UInt8) (digits : List UInt8) (he : e = 101 ∨ e = 69) (hne : digits ≠ [])
      (hdigits : ∀ b ∈ digits, isdigit b = true) : Exponent (e :: 43 :: digits) (number digits)
  | minus (e : UInt8) (digits : List UInt8) (he : e = 101 ∨ e = 69) (hne : digits ≠ [])
      (hdigits : ∀ b ∈ digits, isdigit b = true) : Exponent (e :: 45 :: digits) (-(number digits : Int))

/-- A numeral and its number, rounded. -/
inductive Numeral : List UInt8 → Double → Prop where
  | mk (neg : Bool) (whole fractionText fraction exponentText : List UInt8) (e : Int) (hne : whole ≠ [])
      (hwhole : ∀ b ∈ whole, isdigit b = true) (hfraction : Fraction fractionText fraction)
      (hexponent : Exponent exponentText e) :
      Numeral ((if neg then [45] else []) ++ (whole ++ (fractionText ++ exponentText)))
        (ofDecimal neg (Library.number (whole ++ fraction)) (e - fraction.length))

/-- A numeral as `strtod` reads it: digits may be missing on one side of the point, where at
least the minus or one of them stands before it. -/
inductive LooseNumeral : List UInt8 → Double → Prop where
  | mk (neg : Bool) (whole point fraction exponentText : List UInt8) (e : Int)
      (hdigits : ∀ b ∈ whole ++ fraction, isdigit b = true) (hne : whole ++ fraction ≠ [])
      (hfront : neg = true ∨ whole ≠ []) (hpoint : point = [46] ∨ (point = [] ∧ fraction = []))
      (hexponent : Exponent exponentText e) :
      LooseNumeral ((if neg then [45] else []) ++ (whole ++ (point ++ (fraction ++ exponentText))))
        (ofDecimal neg (Library.number (whole ++ fraction)) (e - fraction.length))

theorem Numeral.loose {text : List UInt8} {x : Double} (h : Numeral text x) : LooseNumeral text x := by
  cases h with
  | mk neg whole fractionText fraction exponentText e hne hwhole hfraction hexponent =>
    cases hfraction with
    | absent =>
      exact .mk neg whole [] [] exponentText e (by simpa using hwhole) (by simpa using hne) (.inr hne)
        (.inr ⟨rfl, rfl⟩) hexponent
    | present _ _ hdigits =>
      exact .mk neg whole [46] fraction exponentText e (List.forall_mem_append.mpr ⟨hwhole, hdigits⟩)
        (List.append_ne_nil_of_left_ne_nil hne _) (.inr hne) (.inl rfl) hexponent

theorem dropWhile_maximal {α : Type*} {p : α → Bool} {s t : List α} (hs : ∀ a ∈ s, p a = true)
    (ht : ∀ a ∈ t.head?, p a = false) : (s ++ t).dropWhile p = t := by
  rw [List.dropWhile_append_of_pos hs]
  cases t with
  | nil => rfl
  | cons b t => rw [List.dropWhile_cons_of_neg (by rw [ht b rfl]; decide)]

theorem sign_digits {digits : List UInt8} (hne : digits ≠ []) (hdigits : ∀ b ∈ digits, isdigit b = true)
    (rest : List UInt8) : sign (digits ++ rest) = (false, digits ++ rest) := by
  cases digits with
  | nil => exact absurd rfl hne
  | cons b digits =>
    have hb := hdigits b (List.mem_cons_self ..)
    have h45 : b ≠ 45 := fun heq => by rw [heq] at hb; cases hb
    have h43 : b ≠ 43 := fun heq => by rw [heq] at hb; cases hb
    unfold sign
    grind

/-- Behind the letter and the sign all of the text are digits. -/
theorem exponent_digits {e : UInt8} {s digits : List UInt8} {neg : Bool} (he : e = 101 ∨ e = 69)
    (hs : sign s = (neg, digits)) (hne : digits ≠ []) (hdigits : ∀ b ∈ digits, isdigit b = true) :
    exponent (e :: s) = (if neg then -(number digits : Int) else number digits, []) := by
  have htake : digits.takeWhile isdigit = digits := List.takeWhile_eq_self_iff.mpr hdigits
  have hdrop : digits.dropWhile isdigit = [] := List.dropWhile_eq_nil_iff.mpr hdigits
  unfold exponent
  simp only [if_pos he, hs, htake, hdrop]

theorem Exponent.exponent_eq {text : List UInt8} {e : Int} (h : Exponent text e) : exponent text = (e, []) := by
  cases h with
  | absent => rfl
  | unsigned e digits he hne hdigits =>
    have hsign := sign_digits hne hdigits []
    rw [List.append_nil] at hsign
    exact exponent_digits he hsign hne hdigits
  | plus e digits he hne hdigits => exact exponent_digits he rfl hne hdigits
  | minus e digits he hne hdigits => exact exponent_digits he rfl hne hdigits

theorem Exponent.head {text : List UInt8} {e : Int} (h : Exponent text e) :
    ∀ b ∈ text.head?, b = 101 ∨ b = 69 := by
  cases h with
  | absent => exact fun b hb => nomatch hb
  | unsigned e digits he => rintro b ⟨⟩; exact he
  | plus e digits he => rintro b ⟨⟩; exact he
  | minus e digits he => rintro b ⟨⟩; exact he

theorem LooseNumeral.strtod_eq {text : List UInt8} {x : Double} (h : LooseNumeral text x) :
    strtod text = some (x, []) := by
  cases h with
  | mk neg whole point fraction exponentText e hdigits hne hfront hpoint hexponent =>
    obtain ⟨hwhole, hfraction⟩ := List.forall_mem_append.mp hdigits
    have hletter : ∀ b ∈ exponentText.head?, isdigit b = false ∧ b ≠ 46 := by
      intro b hb
      rcases hexponent.head b hb with rfl | rfl <;> decide
    have hstop : ∀ b ∈ exponentText.head?, isdigit b = false := fun b hb => (hletter b hb).1
    have hsign : sign ((if neg then [45] else []) ++ (whole ++ (point ++ (fraction ++ exponentText)))) =
        (neg, whole ++ (point ++ (fraction ++ exponentText))) := by
      cases neg with
      | false => exact sign_digits (hfront.resolve_left (by decide)) hwhole _
      | true => rfl
    have hbehind : ∀ b ∈ (point ++ (fraction ++ exponentText)).head?, isdigit b = false := by
      rcases hpoint with rfl | ⟨rfl, rfl⟩
      · rintro b ⟨⟩
        decide
      · exact hstop
    rw [ne_eq, List.append_eq_nil_iff] at hne
    unfold strtod
    simp only [hsign, takeWhile_maximal hwhole hbehind, dropWhile_maximal hwhole hbehind]
    rcases hpoint with rfl | ⟨rfl, rfl⟩
    · simp only [List.singleton_append, takeWhile_maximal hfraction hstop, dropWhile_maximal hfraction hstop,
        if_neg hne, hexponent.exponent_eq]
    · replace hne : whole ≠ [] := fun hnil => hne ⟨hnil, rfl⟩
      cases hexponentText : exponentText with
      | nil =>
        rw [hexponentText] at hexponent
        simp [hne, hexponent.exponent_eq]
      | cons b s =>
        rw [hexponentText] at hexponent hletter
        have h46 : b ≠ 46 := (hletter b rfl).2
        simp [hne, hexponent.exponent_eq, h46]

theorem isNumberChar_digit {b : UInt8} (h : isdigit b = true) : isNumberChar b = true := by
  unfold isNumberChar
  rw [h]
  rfl

theorem LooseNumeral.isNumberChar {text : List UInt8} {x : Double} (h : LooseNumeral text x) :
    ∀ b ∈ text, isNumberChar b = true := by
  cases h with
  | mk neg whole point fraction exponentText e hdigits hne hfront hpoint hexponent =>
    obtain ⟨hwhole, hfraction⟩ := List.forall_mem_append.mp hdigits
    have hletter : ∀ e : UInt8, e = 101 ∨ e = 69 → Json.isNumberChar e = true := by
      rintro e (rfl | rfl) <;> decide
    have hdigit : ∀ digits : List UInt8, (∀ b ∈ digits, isdigit b = true) → ∀ b ∈ digits, Json.isNumberChar b = true :=
      fun _ hdigits b hb => isNumberChar_digit (hdigits b hb)
    simp only [List.forall_mem_append]
    refine ⟨?_, hdigit whole hwhole, ?_, hdigit fraction hfraction, ?_⟩
    · cases neg with
      | false => exact fun _ hb => nomatch hb
      | true => exact List.forall_mem_singleton.mpr (by decide)
    · rcases hpoint with rfl | ⟨rfl, _⟩
      · exact List.forall_mem_singleton.mpr (by decide)
      · exact fun _ hb => nomatch hb
    · cases hexponent with
      | absent => exact fun _ hb => nomatch hb
      | unsigned e digits he _ hdigits => exact List.forall_mem_cons.mpr ⟨hletter e he, hdigit _ hdigits⟩
      | plus e digits he _ hdigits =>
        exact List.forall_mem_cons.mpr ⟨hletter e he, List.forall_mem_cons.mpr ⟨by decide, hdigit _ hdigits⟩⟩
      | minus e digits he _ hdigits =>
        exact List.forall_mem_cons.mpr ⟨hletter e he, List.forall_mem_cons.mpr ⟨by decide, hdigit _ hdigits⟩⟩

theorem LooseNumeral.head {text : List UInt8} {x : Double} (h : LooseNumeral text x) :
    ∃ b s, text = b :: s ∧ (b = 45 ∨ isdigit b = true) := by
  cases h with
  | mk neg whole point fraction exponentText e hdigits hne hfront =>
    cases neg with
    | true => exact ⟨45, _, rfl, .inl rfl⟩
    | false =>
      cases whole with
      | nil => exact absurd rfl (hfront.resolve_left (by decide))
      | cons b whole => exact ⟨b, _, rfl, .inr (hdigits b (List.mem_cons_self ..))⟩

theorem take_append_maximal {α : Type*} {p : α → Bool} {k : Nat} {s t : List α} (hs : ∀ a ∈ s, p a = true)
    (hk : s.length ≤ k) (ht : ∀ a ∈ t.head?, p a = false) : ((s ++ t).take k).takeWhile p = s := by
  rw [List.take_append, List.take_of_length_le hk]
  apply takeWhile_maximal hs
  cases t with
  | nil => simp
  | cons b t =>
    cases k - s.length with
    | zero => simp
    | succ j => exact ht

/-- A numeral is read whole where it is no longer than what is copied of it. -/
theorem LooseNumeral.parseNumber_eq {text : List UInt8} {x : Double} (h : LooseNumeral text x)
    (hlength : text.length ≤ 63) {rest : List UInt8} (hrest : ∀ b ∈ rest.head?, Json.isNumberChar b = false) :
    parseNumber (text ++ rest) = some (.number x, rest) := by
  unfold parseNumber
  simp only [take_append_maximal h.isNumberChar hlength hrest, h.strtod_eq, List.length_nil, Nat.sub_zero,
    List.drop_left]

/-! ### Strings -/

/-- Four hexadecimal digits and their number. -/
def Hex4 (digits : List UInt8) (n : Nat) : Prop :=
  ∃ a b c d i j k l, digits = [a, b, c, d] ∧ hexDigit a = some i ∧ hexDigit b = some j ∧ hexDigit c = some k ∧
    hexDigit d = some l ∧ n = ((i * 16 + j) * 16 + k) * 16 + l

/-- How a character may be written: as it is, by a letter behind a backslash, or by one
code unit of UTF-16 or two. -/
inductive Spells : List UInt8 → Char → Prop where
  | plain (c : Char) (hspace : 32 ≤ c.toNat) (hquote : c ≠ '"') (hbackslash : c ≠ '\\') :
      Spells (String.utf8EncodeChar c) c
  | letter (e b : UInt8) (hb : escaped e = some b) : Spells [92, e] (Char.ofNat b.toNat)
  | unit (digits : List UInt8) (c : Char) (hc : Hex4 digits c.toNat) : Spells (92 :: 117 :: digits) c
  | pair (first second : List UInt8) (high low : Nat) (c : Char) (hfirst : Hex4 first (0xD800 + high))
      (hsecond : Hex4 second (0xDC00 + low)) (hhigh : high < 0x400) (hlow : low < 0x400)
      (hc : c.toNat = 0x10000 + high * 0x400 + low) : Spells (92 :: 117 :: (first ++ 92 :: 117 :: second)) c

/-- The text of a string between its quotes. -/
inductive Literal : List UInt8 → List Char → Prop where
  | nil : Literal [] []
  | cons (spelling text : List UInt8) (c : Char) (chars : List Char) (hc : Spells spelling c)
      (htext : Literal text chars) : Literal (spelling ++ text) (c :: chars)

/-- A text without quotes and backslashes is written as it is. -/
theorem Literal.plain {chars : List Char}
    (h : chars.all (fun c => 32 ≤ c.toNat && c ≠ '"' && c ≠ '\\') = true) : Literal (utf8 chars) chars := by
  induction chars with
  | nil => exact .nil
  | cons c chars ih =>
    simp only [List.all_cons, Bool.and_eq_true, decide_eq_true_eq] at h
    obtain ⟨⟨⟨hspace, hquote⟩, hbackslash⟩, hchars⟩ := h
    refine .cons _ _ c chars (.plain c hspace hquote hbackslash) (ih ?_)
    simpa using hchars

theorem Hex4.parseHex4_eq {digits : List UInt8} {n : Nat} (h : Hex4 digits n) (rest : List UInt8) :
    parseHex4 (digits ++ rest) = n := by
  obtain ⟨a, b, c, d, i, j, k, l, rfl, ha, hb, hc, hd, rfl⟩ := h
  unfold parseHex4
  simp [ha, hb, hc, hd]
  omega

theorem Hex4.length {digits : List UInt8} {n : Nat} (h : Hex4 digits n) : digits.length = 4 := by
  obtain ⟨a, b, c, d, i, j, k, l, rfl, _⟩ := h
  rfl

theorem hexDigit_plain {b : UInt8} {n : Nat} (h : hexDigit b = some n) : b ≠ 34 ∧ b ≠ 92 := by
  refine ⟨fun heq => ?_, fun heq => ?_⟩
  · rw [heq] at h
    cases h
  · rw [heq] at h
    cases h

/-- The bytes of a character. -/
theorem encodeUtf8_char (c : Char) : encodeUtf8 c.toNat = String.utf8EncodeChar c := by
  have hvalid : c.toNat < 0x110000 := by
    rcases c.valid with h | h
    · exact lt_trans h (by decide)
    · exact h.2
  unfold encodeUtf8 String.utf8EncodeChar
  simp only [show c.val.toNat = c.toNat from rfl, ← Nat.lt_succ_iff]
  generalize c.toNat = v at hvalid
  have hsame : ∀ m n : Nat, m = n → m.toUInt8 = UInt8.ofNat n := fun _ _ h => congrArg UInt8.ofNat h
  split
  · rfl
  · split
    · rw [hsame _ (v / 64 % 0x20 + 0xC0) (by omega), hsame _ (v % 0x40 + 0x80) (by omega)]
    · split
      · rw [hsame _ (v / 4096 % 0x10 + 0xE0) (by omega), hsame _ (v / 64 % 0x40 + 0x80) (by omega),
          hsame _ (v % 0x40 + 0x80) (by omega)]
      · rw [hsame _ (v / 262144 % 8 + 0xF0) (by omega), hsame _ (v / 4096 % 0x40 + 0x80) (by omega),
          hsame _ (v / 64 % 0x40 + 0x80) (by omega), hsame _ (v % 0x40 + 0x80) (by omega)]

/-- No byte of a character but the quote or the backslash itself is one of them. -/
theorem plain_bytes {c : Char} (hquote : c ≠ '"') (hbackslash : c ≠ '\\') :
    ∀ b ∈ String.utf8EncodeChar c, b ≠ 34 ∧ b ≠ 92 := by
  refine fun b hb => ⟨fun heq => hquote ?_, fun heq => hbackslash ?_⟩
  · have hc := utf8EncodeChar_low hb (by rw [heq]; decide)
    rw [heq] at hc
    exact Char.toNat_inj.mp hc
  · have hc := utf8EncodeChar_low hb (by rw [heq]; decide)
    rw [heq] at hc
    exact Char.toNat_inj.mp hc

theorem scanLiteral_plain {piece : List UInt8} (hpiece : ∀ b ∈ piece, b ≠ 34 ∧ b ≠ 92) (s : List UInt8) :
    scanLiteral (piece ++ s) = (scanLiteral s).map fun d => (piece ++ d.1, d.2) := by
  induction piece with
  | nil =>
    show scanLiteral s = (scanLiteral s).map id
    rw [Option.map_id]
    rfl
  | cons b piece ih =>
    obtain ⟨h34, h92⟩ := hpiece b (List.mem_cons_self ..)
    have hstep : ∀ u, scanLiteral (b :: u) = (scanLiteral u).map fun d => (b :: d.1, d.2) := by
      intro u
      cases u with
      | nil =>
        show scanLiteral [b] = none
        rw [scanLiteral, if_neg h34]
      | cons c u => rw [scanLiteral, if_neg h34, if_neg h92]
    rw [List.cons_append, hstep, ih fun c hc => hpiece c (List.mem_cons_of_mem b hc), Option.map_map]
    rfl

theorem scanLiteral_backslash (e : UInt8) (s : List UInt8) :
    scanLiteral (92 :: e :: s) = (scanLiteral s).map fun d => (92 :: e :: d.1, d.2) := by
  rw [scanLiteral, if_neg (by decide), if_pos rfl]

/-- A code unit is a backslash and a letter, and digits like any other characters. -/
theorem Hex4.scanLiteral_eq {digits : List UInt8} {n : Nat} (h : Hex4 digits n) (s : List UInt8) :
    scanLiteral (92 :: 117 :: (digits ++ s)) = (scanLiteral s).map fun d => (92 :: 117 :: (digits ++ d.1), d.2) := by
  obtain ⟨a, b, c, d, i, j, k, l, rfl, ha, hb, hc, hd, rfl⟩ := h
  have hplain : ∀ x ∈ [a, b, c, d], x ≠ 34 ∧ x ≠ 92 := by
    simp only [List.forall_mem_cons]
    exact ⟨hexDigit_plain ha, hexDigit_plain hb, hexDigit_plain hc, hexDigit_plain hd, fun _ hx => nomatch hx⟩
  rw [scanLiteral_backslash, scanLiteral_plain hplain, Option.map_map]
  rfl

theorem Spells.scanLiteral_eq {spelling : List UInt8} {c : Char} (h : Spells spelling c) (s : List UInt8) :
    scanLiteral (spelling ++ s) = (scanLiteral s).map fun d => (spelling ++ d.1, d.2) := by
  cases h with
  | plain c hspace hquote hbackslash => exact scanLiteral_plain (plain_bytes hquote hbackslash) s
  | letter e b hb => exact scanLiteral_backslash e s
  | unit digits c hc => exact hc.scanLiteral_eq s
  | pair first second high low c hfirst hsecond =>
    rw [List.cons_append, List.cons_append, List.append_assoc, List.cons_append, List.cons_append,
      hfirst.scanLiteral_eq, hsecond.scanLiteral_eq, Option.map_map]
    refine congrFun (congrArg Option.map (funext fun d => ?_)) _
    simp

theorem Literal.scanLiteral_eq {text : List UInt8} {chars : List Char} (h : Literal text chars) (rest : List UInt8) :
    scanLiteral (text ++ 34 :: rest) = some (text, rest) := by
  induction h with
  | nil => cases rest <;> rfl
  | cons spelling text c chars hc _ ih =>
    rw [List.append_assoc, hc.scanLiteral_eq, ih]
    rfl

theorem unescape_plain {piece : List UInt8} (hpiece : ∀ b ∈ piece, b ≠ 92) (s : List UInt8) :
    unescape 0 (piece ++ s) = (unescape 0 s).map (piece ++ ·) := by
  induction piece with
  | nil =>
    show unescape 0 s = (unescape 0 s).map id
    rw [Option.map_id]
    rfl
  | cons b piece ih =>
    rw [List.cons_append, unescape]
    rw [if_pos (hpiece b (List.mem_cons_self ..)), ih fun c hc => hpiece c (List.mem_cons_of_mem b hc),
      Option.map_map]
    rfl

theorem unescape_skip (piece s : List UInt8) : unescape piece.length (piece ++ s) = unescape 0 s := by
  induction piece with
  | nil => rfl
  | cons b piece ih =>
    rw [List.length_cons, List.cons_append, unescape]
    exact ih

theorem escaped_low {e b : UInt8} (h : escaped e = some b) : b < 128 ∧ e ≠ 117 := by
  unfold escaped at h
  grind

theorem Spells.unescape_eq {spelling : List UInt8} {c : Char} (h : Spells spelling c) (s : List UInt8) :
    unescape 0 (spelling ++ s) = (unescape 0 s).map (String.utf8EncodeChar c ++ ·) := by
  cases h with
  | plain c hspace hquote hbackslash => exact unescape_plain (fun b hb => (plain_bytes hquote hbackslash b hb).2) s
  | letter e b hb =>
    obtain ⟨hlow, hu⟩ := escaped_low hb
    rw [utf8EncodeChar_ascii hlow, List.cons_append, List.cons_append, List.nil_append, unescape]
    simp only [ne_eq, not_true_eq_false, if_false, List.head?_cons, Option.some.injEq, if_neg hu, List.headD_cons, hb]
    rfl
  | unit digits c hc =>
    have hlength : ¬ (92 :: 117 :: (digits ++ s)).length < 6 := by
      rw [List.length_cons, List.length_cons, List.length_append, hc.length]
      omega
    have hcode : parseHex4 ((92 :: 117 :: (digits ++ s)).drop 2) = c.toNat := hc.parseHex4_eq s
    have hscalar : ¬ (0xDC00 ≤ c.toNat ∧ c.toNat ≤ 0xDFFF) ∧ ¬ (0xD800 ≤ c.toNat ∧ c.toNat ≤ 0xDBFF) := by
      have hvalid : c.toNat < 0xD800 ∨ 0xDFFF < c.toNat ∧ c.toNat < 0x110000 := c.valid
      omega
    have hliteral : utf16LiteralToUtf8 (92 :: 117 :: (digits ++ s)) = some (String.utf8EncodeChar c, 6) := by
      unfold utf16LiteralToUtf8
      simp only [if_neg hlength, hcode, if_neg hscalar.1, if_neg hscalar.2, encodeUtf8_char]
    have hskip : unescape 5 (117 :: (digits ++ s)) = unescape 0 s := by
      have hskip := unescape_skip (117 :: digits) s
      rwa [List.length_cons, hc.length] at hskip
    rw [List.cons_append, List.cons_append, unescape]
    simp only [ne_eq, not_true_eq_false, if_false, List.head?_cons, if_true, hliteral, Nat.add_one_sub_one, hskip]
  | pair first second high low c hfirst hsecond hhigh hlow hc =>
    have htext : 92 :: 117 :: (first ++ 92 :: 117 :: second) ++ s =
        92 :: 117 :: (first ++ 92 :: 117 :: (second ++ s)) := by simp
    have hlength : ¬ (92 :: 117 :: (first ++ 92 :: 117 :: (second ++ s))).length < 6 := by
      rw [List.length_cons, List.length_cons, List.length_append, hfirst.length]
      omega
    have hcode : parseHex4 ((92 :: 117 :: (first ++ 92 :: 117 :: (second ++ s))).drop 2) = 0xD800 + high :=
      hfirst.parseHex4_eq _
    have hdrop : (92 :: 117 :: (first ++ 92 :: 117 :: (second ++ s))).drop 6 = 92 :: 117 :: (second ++ s) := by
      show (first ++ 92 :: 117 :: (second ++ s)).drop 4 = _
      rw [← hfirst.length, List.drop_left]
    have hsequence : ¬ ((92 :: 117 :: (second ++ s)).length < 6 ∨ (92 :: 117 :: (second ++ s)).take 2 ≠ [92, 117]) := by
      rw [List.length_cons, List.length_cons, List.length_append, hsecond.length, not_or]
      exact ⟨by omega, by simp⟩
    have hcode' : parseHex4 ((92 :: 117 :: (second ++ s)).drop 2) = 0xDC00 + low := hsecond.parseHex4_eq _
    have hpoint : 0x10000 + (0xD800 + high) % 0x400 * 0x400 + (0xDC00 + low) % 0x400 = c.toNat := by omega
    have hliteral : utf16LiteralToUtf8 (92 :: 117 :: (first ++ 92 :: 117 :: (second ++ s))) =
        some (String.utf8EncodeChar c, 12) := by
      unfold utf16LiteralToUtf8
      simp only [if_neg hlength, hcode, hdrop, if_neg hsequence, hcode',
        if_neg (show ¬ (0xDC00 ≤ 0xD800 + high ∧ 0xD800 + high ≤ 0xDFFF) by omega),
        if_pos (show 0xD800 ≤ 0xD800 + high ∧ 0xD800 + high ≤ 0xDBFF by omega),
        if_neg (show ¬ (0xDC00 + low < 0xDC00 ∨ 0xDFFF < 0xDC00 + low) by omega)]
      rw [hpoint, encodeUtf8_char]
    have hskip : unescape 11 (117 :: (first ++ 92 :: 117 :: (second ++ s))) = unescape 0 s := by
      have hskip := unescape_skip (117 :: (first ++ 92 :: 117 :: second)) s
      simp only [List.length_cons, List.length_append, hfirst.length, hsecond.length, List.cons_append,
        List.append_assoc] at hskip
      exact hskip
    rw [htext, unescape]
    simp only [ne_eq, not_true_eq_false, if_false, List.head?_cons, if_true, hliteral, Nat.add_one_sub_one, hskip]

theorem Literal.unescape_eq {text : List UInt8} {chars : List Char} (h : Literal text chars) :
    unescape 0 text = some (utf8 chars) := by
  induction h with
  | nil => rfl
  | cons spelling text c chars hc _ ih =>
    rw [hc.unescape_eq, ih, utf8_cons]
    rfl

/-- A string is read to its closing quote, and its characters are those it spells. -/
theorem Literal.parseString_eq {text : List UInt8} {chars : List Char} (h : Literal text chars) (rest : List UInt8) :
    parseString (34 :: (text ++ 34 :: rest)) = some (utf8 chars, rest) := by
  unfold parseString
  simp only [h.scanLiteral_eq, h.unescape_eq]
  rfl

/-! ### No NUL -/

theorem Numeral.no_nul {text : List UInt8} {x : Double} (h : Numeral text x) : 0 ∉ text :=
  fun h0 => by cases h.loose.isNumberChar 0 h0

theorem Hex4.no_nul {digits : List UInt8} {n : Nat} (h : Hex4 digits n) : 0 ∉ digits := by
  obtain ⟨a, b, c, d, i, j, k, l, rfl, ha, hb, hc, hd, _⟩ := h
  have hne : ∀ {x : UInt8} {m : Nat}, hexDigit x = some m → 0 ≠ x := by
    rintro x m hx rfl
    cases hx
  simp [hne ha, hne hb, hne hc, hne hd]

theorem Spells.no_nul {spelling : List UInt8} {c : Char} (h : Spells spelling c) : 0 ∉ spelling := by
  cases h with
  | plain c hspace =>
    intro h0
    have hc := utf8EncodeChar_low h0 (by decide)
    rw [hc] at hspace
    cases hspace
  | letter e b hb =>
    have he : 0 ≠ e := by
      rintro rfl
      cases hb
    simp [he]
  | unit digits c hc => simp [hc.no_nul]
  | pair first second high low c hfirst hsecond => simp [hfirst.no_nul, hsecond.no_nul]

theorem Literal.no_nul {text : List UInt8} {chars : List Char} (h : Literal text chars) : 0 ∉ text := by
  induction h with
  | nil => exact List.not_mem_nil
  | cons spelling text c chars hc _ ih => simp [hc.no_nul, ih]

end Rinha.Json
