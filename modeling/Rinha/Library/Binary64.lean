import Rinha.Library.CString
import Mathlib.Algebra.Order.Field.Basic
import Mathlib.Algebra.Order.Ring.Rat
import Mathlib.Data.Nat.Log
import Mathlib.Tactic.Positivity

/-! Binary64 numbers, and `strtod`.

A finite number is a significand below 2^53 times 2^(shift - 1074), so every
finite number is an integer over 2^1074, its `scaled`, and is compared and
truncated as one. A decimal numeral is rounded to nearest, ties to even
(`round`); beyond the largest finite number it is infinite. -/
namespace Rinha.Library

structure Finite where
  neg : Bool
  significand : Nat
  shift : Nat
  significand_lt : significand < 2 ^ 53
  shift_le : shift ≤ 2045
  deriving DecidableEq, Repr

inductive Double where
  | finite (x : Finite)
  | inf (neg : Bool)
  deriving DecidableEq, Repr

/-- What a finite number is an integer over. -/
def denominator : Nat := 2 ^ 1074

theorem denominator_pos : (0 : Int) < denominator := by
  unfold denominator
  positivity

/-- The number times 2^1074. -/
def Finite.scaled (x : Finite) : Int :=
  if x.neg then -(x.significand * 2 ^ x.shift : Nat) else (x.significand * 2 ^ x.shift : Nat)

namespace Double

/-- `x < k` -/
def lt : Double → Int → Bool
  | finite x, k => x.scaled < k * denominator
  | inf neg, _ => neg

/-- `x > k` -/
def gt : Double → Int → Bool
  | finite x, k => k * denominator < x.scaled
  | inf neg, _ => !neg

/-- `modf(x, &intpart) == 0.0`; of an infinity the fraction is 0. -/
def integral : Double → Bool
  | finite x => x.scaled % denominator = 0
  | inf _ => true

/-- `(int64_t)x`: the integer part, and -2^63 where it is out of range, as the
instruction the cast compiles to on x86-64 has it. -/
def toInt64 : Double → Int
  | finite x =>
    let n := x.scaled.tdiv denominator
    if -2 ^ 63 ≤ n ∧ n < 2 ^ 63 then n else -2 ^ 63
  | inf _ => -2 ^ 63

theorem lt_mono {x : Double} {j k : Int} (hjk : j ≤ k) (h : x.lt j = true) : x.lt k = true := by
  cases x with
  | inf neg => exact h
  | finite x =>
    simp only [lt, decide_eq_true_eq] at h ⊢
    exact lt_of_lt_of_le h (Int.mul_le_mul_of_nonneg_right hjk denominator_pos.le)

/-- A number in int64's range that is an integer is kept by the cast. -/
theorem toInt64_of_integral {x : Double} (hi : x.integral = true) (h0 : x.lt 0 = false)
    (h63 : x.lt (2 ^ 63) = true) :
    0 ≤ x.toInt64 ∧ ∀ k : Int, x.lt k = true ↔ x.toInt64 < k := by
  cases x with
  | inf neg =>
    cases neg with
    | false => cases h63
    | true => cases h0
  | finite x =>
    simp only [integral, lt, decide_eq_true_eq, decide_eq_false_iff_not, not_lt] at hi h0 h63
    obtain ⟨n, hn⟩ := Int.dvd_of_emod_eq_zero hi
    have hdiv : x.scaled.tdiv denominator = n := by
      rw [hn]
      exact Int.mul_tdiv_cancel_left n denominator_pos.ne'
    have hlt : ∀ k : Int, x.scaled < k * denominator ↔ n < k := by
      intro k
      rw [hn, mul_comm]
      exact Int.mul_lt_mul_right denominator_pos
    have hn0 : 0 ≤ n := by
      by_contra hneg
      have := (hlt 0).mpr (not_le.mp hneg)
      omega
    have hn63 : n < 2 ^ 63 := (hlt _).mp h63
    have hcast : (finite x).toInt64 = n := by
      simp only [toInt64, hdiv]
      exact if_pos ⟨by omega, hn63⟩
    rw [hcast]
    refine ⟨hn0, fun k => ?_⟩
    rw [lt, decide_eq_true_eq]
    exact hlt k

/-- Everything else that is not negative is cast to -2^63. -/
theorem toInt64_of_le {x : Double} (h63 : x.lt (2 ^ 63) = false) : x.toInt64 = -2 ^ 63 := by
  cases x with
  | inf neg => rfl
  | finite x =>
    simp only [lt, decide_eq_false_iff_not, not_lt] at h63
    have hdiv : 2 ^ 63 ≤ x.scaled.tdiv denominator := by
      have hden := denominator_pos
      rw [Int.tdiv_eq_ediv_of_nonneg (by omega)]
      exact Int.le_ediv_of_mul_le hden h63
    simp only [toInt64]
    exact if_neg (fun h => absurd h.2 (not_lt.mpr hdiv))

end Double

/-! ### Exact values -/

/-- The number itself. -/
def Finite.value (x : Finite) : ℚ := x.scaled / denominator

theorem Finite.value_mul (x : Finite) : x.value * denominator = x.scaled := by
  have hne : (denominator : ℚ) ≠ 0 := by exact_mod_cast denominator_pos.ne'
  exact div_mul_cancel₀ _ hne

theorem Double.lt_iff (x : Finite) (k : Int) : (finite x).lt k = true ↔ x.value < k := by
  have hpos : (0 : ℚ) < denominator := by exact_mod_cast denominator_pos
  rw [lt, decide_eq_true_eq, Finite.value, div_lt_iff₀ hpos]
  exact_mod_cast Iff.rfl

theorem Double.gt_iff (x : Finite) (k : Int) : (finite x).gt k = true ↔ k < x.value := by
  have hpos : (0 : ℚ) < denominator := by exact_mod_cast denominator_pos
  rw [gt, decide_eq_true_eq, Finite.value, lt_div_iff₀ hpos]
  exact_mod_cast Iff.rfl

theorem Double.integral_iff (x : Finite) : (finite x).integral = true ↔ ∃ n : Int, x.value = n := by
  have hne : (denominator : ℚ) ≠ 0 := by exact_mod_cast denominator_pos.ne'
  rw [integral, decide_eq_true_eq]
  constructor
  · intro h
    obtain ⟨n, hn⟩ := Int.dvd_of_emod_eq_zero h
    refine ⟨n, ?_⟩
    rw [Finite.value, hn, Int.cast_mul, Int.cast_natCast, mul_div_cancel_left₀ _ hne]
  · intro h
    obtain ⟨n, hn⟩ := h
    have hmul := x.value_mul
    rw [hn] at hmul
    have hscaled : n * (denominator : Int) = x.scaled := by exact_mod_cast hmul
    rw [← hscaled, Int.mul_emod_left]

/-! ### Rounding -/

/-- `n / d`, to the nearest integer and from halfway to the even one. -/
def divHalfEven (n d : Nat) : Nat :=
  if 2 * (n % d) < d ∨ (2 * (n % d) = d ∧ n / d % 2 = 0) then n / d else n / d + 1

theorem divHalfEven_le (n d : Nat) : divHalfEven n d ≤ n / d + 1 := by
  unfold divHalfEven
  split
  · exact Nat.le_succ _
  · exact le_refl _

/-- How many bits of `q` are beyond the 53 of a significand. -/
def excess (q : Nat) : Nat := q.log2 - 52

theorem div_excess_lt (q : Nat) : q / 2 ^ excess q < 2 ^ 53 := by
  rw [Nat.div_lt_iff_lt_mul (by positivity), ← Nat.pow_add]
  refine lt_of_lt_of_le Nat.lt_log2_self (Nat.pow_le_pow_right (by decide) ?_)
  unfold excess
  omega

/-- The significand of `n / d`, which rounding up may bring to 2^53. -/
theorem significand_le (n d : Nat) : divHalfEven n (d * 2 ^ excess (n / d)) ≤ 2 ^ 53 := by
  refine le_trans (divHalfEven_le _ _) ?_
  rw [← Nat.div_div_eq_div_mul]
  exact div_excess_lt (n / d)

/-- The number of this sign, significand and shift, or the infinity. -/
def make (neg : Bool) (m shift : Nat) (hm : m < 2 ^ 53) : Double :=
  if h : shift ≤ 2045 then .finite ⟨neg, m, shift, hm, h⟩ else .inf neg

/-- `n / d`, rounded. -/
def round (neg : Bool) (n d : Nat) : Double :=
  let scaled := n * denominator
  let shift := excess (scaled / d)
  if h : divHalfEven scaled (d * 2 ^ shift) = 2 ^ 53 then make neg (2 ^ 52) (shift + 1) (by decide)
  else make neg (divHalfEven scaled (d * 2 ^ shift)) shift (lt_of_le_of_ne (significand_le scaled d) h)

/-- `m * 10^e`, rounded. Where the power need not be computed it is not: from
10^309 on the number is infinite, and below 2^(-1075) it is 0. -/
def ofDecimal (neg : Bool) (m : Nat) (e : Int) : Double :=
  if m = 0 ∨ m.log2 + 1 + 3 * e ≤ -1076 then make neg 0 0 (by decide)
  else if 309 ≤ e then .inf neg
  else if 0 ≤ e then round neg (m * 10 ^ e.toNat) 1
  else round neg m (10 ^ (-e).toNat)

/-- What is exactly divided needs no rounding. -/
theorem divHalfEven_mul (k : Nat) {d : Nat} (hd : 0 < d) : divHalfEven (k * d) d = k := by
  rw [divHalfEven, Nat.mul_mod_left, Nat.mul_div_cancel k hd, if_pos (.inl (by omega))]

theorem make_value (neg : Bool) {m shift v : Nat} (hm : m < 2 ^ 53) (hshift : shift ≤ 2045)
    (hv : m * 2 ^ shift = v * denominator) :
    ∃ f, make neg m shift hm = .finite f ∧ f.value = if neg then -(v : ℚ) else v := by
  refine ⟨_, dif_pos hshift, ?_⟩
  have hne : (denominator : ℚ) ≠ 0 := by exact_mod_cast denominator_pos.ne'
  rw [Finite.value, Finite.scaled, hv]
  cases neg with
  | false =>
    simp only [Bool.false_eq_true, if_false]
    rw [Int.cast_natCast, Nat.cast_mul, mul_div_cancel_right₀ _ hne]
  | true =>
    simp only [if_true]
    rw [Int.cast_neg, Int.cast_natCast, Nat.cast_mul, neg_div, mul_div_cancel_right₀ _ hne]

theorem excess_mul_pow {v : Nat} (hv : v < 2 ^ 53) (k : Nat) : excess (v * 2 ^ k) ≤ k := by
  by_cases hzero : v * 2 ^ k = 0
  · rw [hzero]
    exact Nat.zero_le k
  · have hlt : v * 2 ^ k < 2 ^ 53 * 2 ^ k := Nat.mul_lt_mul_of_pos_right hv (Nat.two_pow_pos k)
    rw [← Nat.pow_add] at hlt
    have hlog := (Nat.log2_lt hzero).mpr hlt
    unfold excess
    omega

/-- An integer below 2^53 is a number. -/
theorem round_exact (neg : Bool) {v d : Nat} (hd : 0 < d) (hv : v < 2 ^ 53) :
    ∃ f, round neg (v * d) d = .finite f ∧ f.value = if neg then -(v : ℚ) else v := by
  have hscaled : v * d * denominator = v * denominator * d := Nat.mul_right_comm v d denominator
  have hquotient : v * d * denominator / d = v * denominator := by rw [hscaled, Nat.mul_div_cancel _ hd]
  obtain ⟨k, hk, hdenominator⟩ : ∃ k, k = 1074 ∧ denominator = 2 ^ k := ⟨1074, rfl, rfl⟩
  obtain ⟨shift, hshift⟩ : ∃ shift, excess (v * denominator) = shift := ⟨_, rfl⟩
  have hle : shift ≤ k := by
    rw [← hshift, hdenominator]
    exact excess_mul_pow hv k
  unfold round
  simp only [hquotient, hshift]
  have hsplit : v * 2 ^ (k - shift) * 2 ^ shift = v * denominator := by
    rw [Nat.mul_assoc, ← Nat.pow_add, Nat.sub_add_cancel hle, hdenominator]
  have hexact : divHalfEven (v * d * denominator) (d * 2 ^ shift) = v * 2 ^ (k - shift) := by
    rw [hscaled, ← hsplit, Nat.mul_assoc _ (2 ^ shift) d, Nat.mul_comm (2 ^ shift) d]
    exact divHalfEven_mul _ (Nat.mul_pos hd (Nat.two_pow_pos shift))
  by_cases hcarry : divHalfEven (v * d * denominator) (d * 2 ^ shift) = 2 ^ 53
  · rw [dif_pos hcarry]
    apply make_value neg _ (by omega)
    rw [← hsplit, ← hexact, hcarry, Nat.add_comm shift, Nat.pow_add, ← Nat.mul_assoc, ← Nat.pow_add]
  · rw [dif_neg hcarry]
    apply make_value neg _ (by omega)
    rw [hexact, hsplit]

theorem pow_eight_le_ten (k : Nat) : 2 ^ (3 * k) ≤ 10 ^ k := by
  rw [Nat.pow_mul]
  exact Nat.pow_le_pow_left (by decide) k

/-- A numeral of such an integer is converted to it, however it is written. -/
theorem ofDecimal_exact (neg : Bool) {m v : Nat} {e : Int} (h : (m : ℚ) * 10 ^ e = v) (hv : v < 2 ^ 53) :
    ∃ f, ofDecimal neg m e = .finite f ∧ f.value = if neg then -(v : ℚ) else v := by
  unfold ofDecimal
  cases e with
  | ofNat k =>
    have hmul : m * 10 ^ k = v := by
      rw [Int.ofNat_eq_natCast, zpow_natCast] at h
      exact_mod_cast h
    by_cases hzero : m = 0
    · rw [if_pos (.inl hzero)]
      apply make_value neg _ (by decide)
      rw [← hmul, hzero, Nat.zero_mul, Nat.zero_mul, Nat.zero_mul]
    · have hsmall : ¬ (m = 0 ∨ (m.log2 : Int) + 1 + 3 * Int.ofNat k ≤ -1076) := by
        rw [not_or]
        exact ⟨hzero, by simp only [Int.ofNat_eq_natCast]; omega⟩
      have hfew : ¬ (309 : Int) ≤ Int.ofNat k := by
        intro hmany
        have hk : 309 ≤ k := by simpa using hmany
        have hle : 10 ^ 16 ≤ m * 10 ^ k := (Nat.pow_le_pow_right (by decide) ((by decide : 16 ≤ 309).trans hk)).trans
          (Nat.le_mul_of_pos_left _ (Nat.pos_of_ne_zero hzero))
        omega
      rw [if_neg hsmall, if_neg hfew, if_pos (by simp)]
      show ∃ f, round neg (m * 10 ^ k) 1 = _ ∧ _
      rw [hmul, ← Nat.mul_one v]
      simpa using round_exact neg Nat.one_pos hv
  | negSucc k =>
    have hpos : (0 : ℚ) < 10 ^ (k + 1) := by positivity
    have hmul : m = v * 10 ^ (k + 1) := by
      rw [zpow_negSucc, ← div_eq_mul_inv, div_eq_iff hpos.ne'] at h
      exact_mod_cast h
    by_cases hzero : m = 0
    · rw [if_pos (.inl hzero)]
      apply make_value neg _ (by decide)
      have hv0 : v = 0 := by
        rw [hzero] at hmul
        exact (Nat.mul_eq_zero.mp hmul.symm).resolve_right (by positivity)
      rw [hv0, Nat.zero_mul, Nat.zero_mul]
    · have hv0 : 0 < v := by
        apply Nat.pos_of_ne_zero
        intro hv0
        exact hzero (by rw [hmul, hv0, Nat.zero_mul])
      have hlog : 3 * (k + 1) ≤ m.log2 := by
        rw [Nat.le_log2 hzero, hmul]
        exact (pow_eight_le_ten (k + 1)).trans (Nat.le_mul_of_pos_left _ hv0)
      have hsmall : ¬ (m = 0 ∨ (m.log2 : Int) + 1 + 3 * Int.negSucc k ≤ -1076) := by
        rw [not_or]
        exact ⟨hzero, by omega⟩
      rw [if_neg hsmall, if_neg (by omega), if_neg (by omega)]
      show ∃ f, round neg m (10 ^ (k + 1)) = _ ∧ _
      rw [hmul]
      exact round_exact neg (by positivity) hv

/-! ### strtod -/

def sign : List UInt8 → Bool × List UInt8
  | 45 :: s => (true, s)
  | 43 :: s => (false, s)
  | s => (false, s)

/-- The exponent, if the text goes on with one. -/
def exponent (s : List UInt8) : Int × List UInt8 :=
  match s with
  | [] => (0, [])
  | b :: t =>
    if b = 101 ∨ b = 69 then
      let (neg, t) := sign t
      match t.takeWhile isdigit with
      | [] => (0, s)
      | digits => (if neg then -(number digits : Int) else number digits, t.dropWhile isdigit)
    else (0, s)

/-- The decimal numeral at the front of a text, rounded, and the text behind it. -/
def strtod (text : List UInt8) : Option (Double × List UInt8) :=
  let (neg, s) := sign text
  let whole := s.takeWhile isdigit
  let (fraction, s) := match s.dropWhile isdigit with
    | 46 :: t => (t.takeWhile isdigit, t.dropWhile isdigit)
    | t => ([], t)
  if whole = [] ∧ fraction = [] then none
  else
    let (e, rest) := exponent s
    some (ofDecimal neg (number (whole ++ fraction)) (e - fraction.length), rest)

end Rinha.Library
