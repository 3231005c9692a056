import Mathlib.Data.List.TakeWhile
import Mathlib.Data.UInt

/-! Bytes as C reads and writes them.

A C string is the bytes before the first NUL. `scanLu` is what `scanf` makes of
them at a `%lu`, `decimal` what `printf` writes for one. -/
namespace Rinha.Library

/-- The bytes of a string constant, without the NUL that ends it. -/
def bytes (s : String) : List UInt8 := s.toUTF8.data.toList

def cstr (s : List UInt8) : List UInt8 := s.takeWhile (· ≠ 0)

/-- `memcpy` to the front of an array. -/
def memcpy (dst src : List UInt8) : List UInt8 := src ++ dst.drop src.length

def isspace (b : UInt8) : Bool := b = 32 || 9 ≤ b && b ≤ 13

def isdigit (b : UInt8) : Bool := 48 ≤ b && b ≤ 57

/-- The number the digits write. -/
def number (digits : List UInt8) : Nat := digits.foldl (fun n d => 10 * n + (d.toNat - 48)) 0

/-- `UINT64_MAX` -/
def uint64Max : Nat := 18446744073709551615

/-- The digits at the front of a text, if there is one. -/
def scanDigits (s : List UInt8) : Option Nat :=
  if s.takeWhile isdigit = [] then none else some (number (s.takeWhile isdigit))

/-- A sign and digits, as `strtoul` converts them: out of range gives
`UINT64_MAX`, and a minus sign negates modulo 2^64. -/
def scanSigned : List UInt8 → Option Nat
  | 43 :: s => (scanDigits s).map fun n => min n uint64Max
  | 45 :: s => (scanDigits s).map fun n => if uint64Max < n then uint64Max else (2 ^ 64 - n) % 2 ^ 64
  | s => (scanDigits s).map fun n => min n uint64Max

/-- `%lu`, which skips white space first. -/
def scanLu (s : List UInt8) : Option Nat := scanSigned (s.dropWhile isspace)

/-- `%lu` and, for what is not negative, `%ld` -/
def decimal (n : Nat) : List UInt8 := (Nat.toDigits 10 n).map fun c => c.toNat.toUInt8

/-- `%ld` -/
def decimalInt : Int → List UInt8
  | .ofNat n => decimal n
  | .negSucc n => 45 :: decimal (n + 1)

theorem decimal_length {n k : Nat} (hk : 0 < k) (hn : n < 10 ^ k) : (decimal n).length ≤ k := by
  rw [decimal, List.length_map]
  exact (Nat.length_toDigits_le_iff (by decide) hk).mpr hn

theorem decimalInt_length {z : Int} {k : Nat} (hk : 0 < k) (hz : z.natAbs < 10 ^ k) :
    (decimalInt z).length ≤ k + 1 := by
  cases z with
  | ofNat n => exact Nat.le_succ_of_le (decimal_length hk hz)
  | negSucc n => exact Nat.succ_le_succ (decimal_length hk hz)

/-- What holds of the 256 bytes holds of every byte. -/
theorem forall_byte {p : UInt8 → Prop} (h : ∀ n : Fin 256, p (UInt8.ofNat n)) (b : UInt8) : p b := by
  have hb := h ⟨b.toNat, b.toNat_lt⟩
  rwa [UInt8.ofNat_toNat] at hb

theorem isdigit_of_isDigit {c : Char} (hc : c.isDigit = true) :
    isdigit c.toNat.toUInt8 = true ∧ c.toNat.toUInt8.toNat = c.toNat := by
  obtain ⟨hlow, hhigh⟩ := Char.isDigit_iff_toNat.mp hc
  have hnat : c.toNat.toUInt8.toNat = c.toNat := by
    rw [UInt8.toNat_ofNat']
    exact Nat.mod_eq_of_lt (lt_of_le_of_lt hhigh (by decide))
  refine ⟨?_, hnat⟩
  unfold isdigit
  rw [Bool.and_eq_true, decide_eq_true_eq, decide_eq_true_eq, UInt8.le_iff_toNat_le, UInt8.le_iff_toNat_le, hnat]
  exact ⟨hlow, hhigh⟩

theorem decimal_digits (n : Nat) : ∀ b ∈ decimal n, isdigit b = true := by
  intro b hb
  obtain ⟨c, hc, rfl⟩ := List.mem_map.mp hb
  exact (isdigit_of_isDigit (Nat.isDigit_of_mem_toDigits (by decide) (by decide) hc)).1

theorem decimal_ne_nil (n : Nat) : decimal n ≠ [] := by
  rw [decimal, ne_eq, List.map_eq_nil_iff]
  exact Nat.toDigits_ne_nil

/-- The digits write the number. -/
theorem number_decimal (n : Nat) : number (decimal n) = n := by
  have hfold : ∀ (cs : List Char) (m : Nat), (∀ c ∈ cs, c.isDigit = true) →
      (cs.map fun c => c.toNat.toUInt8).foldl (fun n d => 10 * n + (d.toNat - 48)) m = Nat.ofDigitChars 10 cs m := by
    intro cs
    induction cs with
    | nil => exact fun m _ => rfl
    | cons c cs ih =>
      intro m hcs
      rw [List.map_cons, List.foldl_cons, (isdigit_of_isDigit (hcs c (List.mem_cons_self ..))).2,
        ih _ fun d hd => hcs d (List.mem_cons_of_mem c hd), Nat.ofDigitChars_cons]
      rfl
  unfold number decimal
  rw [hfold _ _ fun c hc => Nat.isDigit_of_mem_toDigits (by decide) (by decide) hc,
    Nat.ofDigitChars_ten_toDigits]

theorem decimal_injective : Function.Injective decimal := by
  intro m n h
  rw [← number_decimal m, h, number_decimal]

theorem decimalInt_injective : Function.Injective decimalInt := by
  have hminus : ∀ m n, decimal m ≠ 45 :: decimal n := by
    intro m n h
    have hdigit := decimal_digits m 45 (by rw [h]; exact List.mem_cons_self ..)
    cases hdigit
  intro y z h
  cases y with
  | ofNat m =>
    cases z with
    | ofNat n => exact congrArg Int.ofNat (decimal_injective h)
    | negSucc n => exact absurd h (hminus m (n + 1))
  | negSucc m =>
    cases z with
    | ofNat n => exact absurd h.symm (hminus n (m + 1))
    | negSucc n => rw [Nat.succ.inj (decimal_injective (List.cons.inj h).2)]

/-! ### C strings -/

theorem takeWhile_append_stop {α : Type*} {p : α → Bool} {b : α} (hb : p b = false) (s t : List α) :
    (s ++ b :: t).takeWhile p = s.takeWhile p := by
  induction s with
  | nil => simp [hb]
  | cons a s ih =>
    rw [List.cons_append, List.takeWhile_cons, List.takeWhile_cons, ih]

theorem cstr_append {s : List UInt8} (hs : ∀ b ∈ s, b ≠ 0) (t : List UInt8) :
    cstr (s ++ t) = s ++ cstr t := by
  unfold cstr
  rw [List.takeWhile_append_of_pos]
  intro b hb
  simpa using hs b hb

theorem cstr_append_zero {s : List UInt8} (hs : ∀ b ∈ s, b ≠ 0) (t : List UInt8) :
    cstr (s ++ 0 :: t) = s := by
  rw [cstr_append hs]
  simp [cstr]

theorem cstr_append_nul (s t : List UInt8) : cstr (s ++ 0 :: t) = cstr s :=
  takeWhile_append_stop (by decide) s t

theorem cstr_eq_self {s : List UInt8} (h : 0 ∉ s) : cstr s = s := by
  have hs := cstr_append (s := s) (fun b hb hb0 => h (hb0 ▸ hb)) []
  rw [List.append_nil] at hs
  exact hs.trans (List.append_nil s)

theorem cstr_prefix_cstr {s t : List UInt8} (h : s <+: t) : cstr s <+: cstr t := by
  obtain ⟨u, rfl⟩ := h
  unfold cstr
  rw [List.takeWhile_append]
  split
  · exact (List.takeWhile_prefix _).trans (List.prefix_append ..)
  · exact List.prefix_rfl

theorem cstr_ne_zero {s : List UInt8} : ∀ b ∈ cstr s, b ≠ 0 := by
  intro b hb
  simpa using List.mem_takeWhile_imp hb

/-- The first NUL is where the string ends. -/
theorem getElem?_cstr_length {s : List UInt8} {k : Nat} (h : s[k]? = some 0) :
    s[(cstr s).length]? = some 0 ∧ (cstr s).length ≤ k := by
  induction s generalizing k with
  | nil => cases h
  | cons b rest ih =>
    unfold cstr
    by_cases hb : b = 0
    · subst hb
      rw [List.takeWhile_cons_of_neg (by decide)]
      exact ⟨rfl, Nat.zero_le k⟩
    · rw [List.takeWhile_cons_of_pos (by simpa using hb)]
      cases k with
      | zero => exact absurd (Option.some.inj h) hb
      | succ k =>
        obtain ⟨hnul, hle⟩ := ih h
        exact ⟨hnul, Nat.succ_le_succ hle⟩

/-- The string at an offset into an array ends at a NUL of the array. -/
def EndsInside (array : List UInt8) (offset : Nat) : Prop :=
  array[offset + (cstr (array.drop offset)).length]? = some 0

/-- It does where there is a NUL at the offset or behind it. -/
theorem endsInside {array : List UInt8} {offset k : Nat} (h : array[k]? = some 0) (hle : offset ≤ k) :
    EndsInside array offset := by
  have hdrop : (array.drop offset)[k - offset]? = some 0 := by
    rw [List.getElem?_drop, Nat.add_sub_cancel' hle]
    exact h
  have hnul := (getElem?_cstr_length hdrop).1
  rw [List.getElem?_drop] at hnul
  exact hnul

theorem length_memcpy {dst src : List UInt8} (h : src.length ≤ dst.length) :
    (memcpy dst src).length = dst.length := by
  rw [memcpy, List.length_append, List.length_drop]
  omega

/-- What is behind the copied bytes stays. -/
theorem getElem?_memcpy {dst src : List UInt8} {k : Nat} (h : src.length ≤ k) : (memcpy dst src)[k]? = dst[k]? := by
  rw [memcpy, List.getElem?_append_right h, List.getElem?_drop, Nat.add_sub_cancel' h]

theorem cstr_cons {b : UInt8} (hb : b ≠ 0) (s : List UInt8) : cstr (b :: s) = b :: cstr s :=
  cstr_append (s := [b]) (by simpa using hb) s

/-- A text in an array of zeros ends at a NUL, if the array is longer. -/
theorem memcpy_zeros {s : List UInt8} (hs : ∀ b ∈ s, b ≠ 0) (k : Nat) :
    (0 ∈ memcpy (List.replicate k 0) s ↔ s.length < k) ∧
      (s.length < k → cstr (memcpy (List.replicate k 0) s) = s) := by
  unfold memcpy
  rw [List.drop_replicate]
  constructor
  · rw [List.mem_append, List.mem_replicate]
    constructor
    · rintro (h | h)
      · exact absurd rfl (hs 0 h)
      · omega
    · intro h
      exact .inr ⟨by omega, rfl⟩
  · intro h
    obtain ⟨m, hm⟩ : ∃ m, k - s.length = m + 1 := ⟨k - s.length - 1, by omega⟩
    rw [hm, List.replicate_succ]
    exact cstr_append_zero hs _

/-! ### Numbers in a text -/

/-- A number ends before the first byte that is no digit, whatever follows. -/
theorem scanDigits_stop {b : UInt8} (hb : isdigit b = false) (s t : List UInt8) :
    scanDigits (s ++ b :: t) = scanDigits s := by
  unfold scanDigits
  rw [takeWhile_append_stop hb]

theorem scanSigned_stop {b c : UInt8} (hb : isdigit b = false) (s t : List UInt8) :
    scanSigned (c :: s ++ b :: t) = scanSigned (c :: s) := by
  unfold scanSigned
  by_cases h43 : c = 43
  · subst h43
    simp only [List.cons_append, scanDigits_stop hb]
  · by_cases h45 : c = 45
    · subst h45
      simp only [List.cons_append, scanDigits_stop hb]
    · have := scanDigits_stop hb (c :: s) t
      split <;> simp_all

/-- White space, a sign or none and all the digits behind it, with the value of these
as `strtoul` has it. -/
structure Numeral (text blanks sign digits rest : List UInt8) (n : Nat) : Prop where
  split : text = blanks ++ (sign ++ (digits ++ rest))
  white : ∀ b ∈ blanks, isspace b = true
  nonempty : digits ≠ []
  figures : ∀ b ∈ digits, isdigit b = true
  stop : ∀ b ∈ rest.head?, isdigit b = false
  value : ((sign = [] ∨ sign = [43]) ∧ n = min (number digits) uint64Max) ∨
    (sign = [45] ∧ n = if uint64Max < number digits then uint64Max else (2 ^ 64 - number digits) % 2 ^ 64)

theorem takeWhile_maximal {α : Type*} {p : α → Bool} {s t : List α} (hs : ∀ a ∈ s, p a = true)
    (ht : ∀ a ∈ t.head?, p a = false) : (s ++ t).takeWhile p = s := by
  cases t with
  | nil => rw [List.append_nil, List.takeWhile_eq_self_iff.mpr hs]
  | cons b t => rw [takeWhile_append_stop (ht b rfl), List.takeWhile_eq_self_iff.mpr hs]

theorem dropWhile_head {α : Type*} (p : α → Bool) (s : List α) : ∀ a ∈ (s.dropWhile p).head?, p a = false := by
  intro a ha
  have hfirst := List.head?_dropWhile_not p s
  rw [Option.mem_def.mp ha] at hfirst
  simpa using hfirst

theorem scanDigits_some {s : List UInt8} {m : Nat} (h : scanDigits s = some m) :
    s.takeWhile isdigit ≠ [] ∧ m = number (s.takeWhile isdigit) := by
  unfold scanDigits at h
  split at h
  · cases h
  · rename_i hne
    cases h
    exact ⟨hne, rfl⟩

/-- `%lu` reads the numeral at the front of a text. -/
theorem scanLu_numeral {s : List UInt8} {n : Nat} (h : scanLu s = some n) :
    ∃ blanks sign digits rest, Numeral s blanks sign digits rest n := by
  have hnumeral : ∀ {sign t : List UInt8}, s.dropWhile isspace = sign ++ t → t.takeWhile isdigit ≠ [] →
      ((sign = [] ∨ sign = [43]) ∧ n = min (number (t.takeWhile isdigit)) uint64Max) ∨
        (sign = [45] ∧ n = if uint64Max < number (t.takeWhile isdigit) then uint64Max
          else (2 ^ 64 - number (t.takeWhile isdigit)) % 2 ^ 64) →
      ∃ blanks sign digits rest, Numeral s blanks sign digits rest n := by
    intro sign t ht hne hvalue
    refine ⟨s.takeWhile isspace, sign, t.takeWhile isdigit, t.dropWhile isdigit, ?_, ?_, hne, ?_, ?_, hvalue⟩
    · rw [List.takeWhile_append_dropWhile, ← ht, List.takeWhile_append_dropWhile]
    · exact fun b hb => List.mem_takeWhile_imp hb
    · exact fun b hb => List.mem_takeWhile_imp hb
    · exact dropWhile_head isdigit t
  unfold scanLu scanSigned at h
  split at h
  · rename_i t ht
    obtain ⟨m, hm, rfl⟩ := Option.map_eq_some_iff.mp h
    obtain ⟨hne, rfl⟩ := scanDigits_some hm
    exact @hnumeral [43] t ht hne (.inl ⟨.inr rfl, rfl⟩)
  · rename_i t ht
    obtain ⟨m, hm, rfl⟩ := Option.map_eq_some_iff.mp h
    obtain ⟨hne, rfl⟩ := scanDigits_some hm
    exact @hnumeral [45] t ht hne (.inr ⟨rfl, rfl⟩)
  · obtain ⟨m, hm, rfl⟩ := Option.map_eq_some_iff.mp h
    obtain ⟨hne, rfl⟩ := scanDigits_some hm
    exact @hnumeral [] _ rfl hne (.inl ⟨.inl rfl, rfl⟩)

theorem Numeral.scanLu {s blanks sign digits rest : List UInt8} {n : Nat}
    (h : Numeral s blanks sign digits rest n) : scanLu s = some n := by
  obtain ⟨rfl, hblanks, hne, hdigits, hrest, hvalue⟩ := h
  have htake : (digits ++ rest).takeWhile isdigit = digits := takeWhile_maximal hdigits hrest
  have hscan : scanDigits (digits ++ rest) = some (number digits) := by
    rw [scanDigits, htake, if_neg hne]
  obtain ⟨d, t, rfl⟩ := List.exists_cons_of_ne_nil hne
  have hd : isdigit d = true := hdigits d (List.mem_cons_self ..)
  have hdrop : ∀ b u, isspace b = false → (blanks ++ b :: u).dropWhile isspace = b :: u := by
    intro b u hb
    rw [List.dropWhile_append_of_pos hblanks, List.dropWhile_cons_of_neg (by rw [hb]; decide)]
  unfold Library.scanLu
  rcases hvalue with ⟨hsign, rfl⟩ | ⟨rfl, rfl⟩
  · rcases hsign with rfl | rfl
    · have hspace : isspace d = false := by
        unfold isdigit at hd
        unfold isspace
        grind
      rw [List.nil_append, List.cons_append, hdrop d _ hspace, ← List.cons_append]
      unfold scanSigned
      split
      · rename_i heq
        cases (List.cons.inj heq).1
        cases hd
      · rename_i heq
        cases (List.cons.inj heq).1
        cases hd
      · rw [hscan, Option.map_some]
    · rw [List.singleton_append, hdrop 43 _ (by decide), scanSigned, hscan, Option.map_some]
  · rw [List.singleton_append, hdrop 45 _ (by decide), scanSigned, hscan, Option.map_some]

end Rinha.Library
