import Rinha.Request.Transacao

/-! The conversion of `valor` to `int64_t`.

The bound `(double)__INT64_MAX__` is 2^63, one more than the greatest `int64_t`, and is
not itself refused. Every other number that passes the checks is an integer that the cast
keeps (`exactValor_iff`). -/
namespace Rinha.Request
open Library Json

/-- What is stored is the number, an integer in the range of `int64_t` that is not negative. -/
def ExactValor (x : Double) : Prop :=
  ∀ valor, checkValor (some (.number x)) = .ok valor →
    0 ≤ valor ∧ valor ≤ 2 ^ 63 - 1 ∧ ∃ f, x = .finite f ∧ f.value = valor

theorem checkValor_number (x : Double) (valor : Int) :
    checkValor (some (.number x)) = .ok valor ↔
      x.lt 0 = false ∧ x.integral = true ∧ x.gt int64Max = false ∧ valor = x.toInt64 := by
  unfold checkValor CJson.numberValue
  simp only
  cases x.lt 0 <;> cases x.integral <;> cases x.gt int64Max <;> simp [eq_comm]

/-- The double nearest to the greatest `int64_t` is 2^63. -/
theorem round_int64Max : ∃ f, Library.round false (2 ^ 63 - 1) 1 = .finite f ∧ f.value = int64Max := by
  refine ⟨⟨false, 2 ^ 52, 1085, by decide, by decide⟩, by decide +kernel, ?_⟩
  have hscaled : (⟨false, 2 ^ 52, 1085, by decide, by decide⟩ : Library.Finite).scaled = int64Max * denominator := by
    decide +kernel
  have hne : (denominator : ℚ) ≠ 0 := by exact_mod_cast denominator_pos.ne'
  rw [Library.Finite.value, hscaled, Int.cast_mul, Int.cast_natCast, mul_div_cancel_right₀ _ hne]

/-- The bound is the `int64_t` one converted to double, and the number is stored as it is
unless it is the bound. -/
theorem exactValor_iff (x : Double) :
    (∃ f, Library.round false (2 ^ 63 - 1) 1 = .finite f ∧ f.value = int64Max ∧ (int64Max : ℚ) = 2 ^ 63) ∧
      (ExactValor x ↔ ∀ f, x = .finite f → f.value ≠ 2 ^ 63) := by
  have hmax : (int64Max : ℚ) = 2 ^ 63 := by norm_num [int64Max]
  obtain ⟨bound, hbound, hvalue⟩ := round_int64Max
  refine ⟨⟨bound, hbound, hvalue, hmax⟩, ?_, ?_⟩
  · intro h f hf heq
    subst hf
    have hcast : f.value = int64Max := heq.trans hmax.symm
    have hlt : (Double.finite f).lt 0 = false := by
      rw [Bool.eq_false_iff, ne_eq, Double.lt_iff, heq]
      norm_num
    have hgt : (Double.finite f).gt int64Max = false := by
      rw [Bool.eq_false_iff, ne_eq, Double.gt_iff, hcast]
      exact lt_irrefl _
    have hintegral : (Double.finite f).integral = true := (Double.integral_iff f).mpr ⟨int64Max, hcast⟩
    obtain ⟨_, hle, g, hg, hvalor⟩ := h _ ((checkValor_number _ _).mpr ⟨hlt, hintegral, hgt, rfl⟩)
    cases hg
    rw [hcast] at hvalor
    have := Int.cast_injective hvalor
    unfold int64Max at this
    omega
  · intro h valor hvalor
    obtain ⟨hlt, hintegral, hgt, rfl⟩ := (checkValor_number x valor).mp hvalor
    cases x with
    | inf neg =>
      -- `x < 0` holds of one infinity, and `x > 2^63` of the other.
      cases neg with
      | false => cases hgt
      | true => cases hlt
    | finite f =>
      have hbelow : f.value < 2 ^ 63 := by
        rw [Bool.eq_false_iff, ne_eq, Double.gt_iff, hmax, not_lt] at hgt
        exact lt_of_le_of_ne hgt (h f rfl)
      have h63 : (Double.finite f).lt (2 ^ 63) = true := by
        rw [Double.lt_iff]
        exact_mod_cast hbelow
      obtain ⟨hnonneg, hkept⟩ := Double.toInt64_of_integral hintegral hlt h63
      have hle : (Double.finite f).toInt64 < 2 ^ 63 := (hkept _).mp h63
      obtain ⟨n, hn⟩ := (Double.integral_iff f).mp hintegral
      have hsame : ∀ k : Int, n < k ↔ (Double.finite f).toInt64 < k := by
        intro k
        rw [← hkept, Double.lt_iff, hn]
        exact Int.cast_lt.symm
      have heq : n = (Double.finite f).toInt64 := by
        have hup := (hsame ((Double.finite f).toInt64 + 1)).mpr (by omega)
        have hdown := (hsame (n + 1)).mp (by omega)
        omega
      exact ⟨hnonneg, by omega, f, rfl, by rw [hn, heq]⟩

/-- The greatest `int64_t` in a body is read as 2^63, and what the cast gives for that is
the least one. -/
theorem int64Max_overflows :
    ∃ x, parseNumber (bytes "9223372036854775807") = some (.number x, []) ∧
      checkValor (some (.number x)) = .ok (-9223372036854775808) ∧ ¬ ExactValor x := by
  have hcheck : checkValor (some (.number (.finite ⟨false, 2 ^ 52, 1085, by decide, by decide⟩))) =
      .ok (-9223372036854775808) := by
    decide +kernel
  have hread : strtod (bytes "9223372036854775807") =
      some (.finite ⟨false, 2 ^ 52, 1085, by decide, by decide⟩, []) := by
    decide +kernel
  have htake : ((bytes "9223372036854775807").take 63).takeWhile isNumberChar = bytes "9223372036854775807" := by
    decide +kernel
  have hparse : parseNumber (bytes "9223372036854775807") =
      some (.number (.finite ⟨false, 2 ^ 52, 1085, by decide, by decide⟩), []) := by
    unfold parseNumber
    simp only [htake, hread]
    rfl
  refine ⟨_, hparse, hcheck, fun h => ?_⟩
  have := (h _ hcheck).1
  omega

end Rinha.Request
