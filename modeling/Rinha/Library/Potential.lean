import Mathlib.Algebra.Order.Monoid.OrderDual
import Mathlib.Algebra.Order.Monoid.Defs
import Mathlib.Algebra.BigOperators.Group.List.Basic
import Rinha.Library.Runs

/-! Potentials of a machine.

An input has a price and may bring something. Where no step costs more than what its
input brings and what the potential falls by, a whole run does not (`run_price`);
with a potential that is never negative its price is bounded by what it brought.
And where every state that is no goal has a step by which a potential falls, a goal
is reached (`exists_run_to`). -/
namespace Rinha.Library

variable {σ ι ε : Type*} {step : σ → ι → Except ε σ}

section Price
variable {α : Type*} [AddCommMonoid α] [PartialOrder α] [IsOrderedAddMonoid α]

/-- No run costs more than it brings and its potential falls by. -/
theorem run_price (potential : σ → α) (price gain : ι → α) {I : σ → Prop}
    (hI : ∀ s i t, I s → step s i = .ok t → I t)
    (hprice : ∀ s i t, I s → step s i = .ok t → potential t + price i ≤ potential s + gain i) {s t : σ} (hs : I s)
    {is : List ι} (ht : run step s is = .ok t) :
    potential t + (is.map price).sum ≤ potential s + (is.map gain).sum := by
  induction is generalizing s with
  | nil =>
    cases ht
    exact le_rfl
  | cons i rest ih =>
    cases hstep : step s i with
    | error e =>
      rw [run, hstep] at ht
      cases ht
    | ok u =>
      rw [run_ok s i rest u hstep] at ht
      have hrest := ih (hI s i u hs hstep) ht
      have hfirst := hprice s i u hs hstep
      calc potential t + ((i :: rest).map price).sum
          = potential t + (rest.map price).sum + price i := by
            rw [List.map_cons, List.sum_cons, add_comm (price i), add_assoc]
        _ ≤ potential u + (rest.map gain).sum + price i := by gcongr
        _ = potential u + price i + (rest.map gain).sum := add_right_comm _ _ _
        _ ≤ potential s + gain i + (rest.map gain).sum := by gcongr
        _ = potential s + ((i :: rest).map gain).sum := by rw [List.map_cons, List.sum_cons, add_assoc]

/-- Where every step pays exactly, so does a run. -/
theorem run_pays (potential : σ → α) (price gain : ι → α) {I : σ → Prop}
    (hI : ∀ s i t, I s → step s i = .ok t → I t)
    (hpays : ∀ s i t, I s → step s i = .ok t → potential t + price i = potential s + gain i) {s t : σ} (hs : I s)
    {is : List ι} (ht : run step s is = .ok t) :
    potential t + (is.map price).sum = potential s + (is.map gain).sum :=
  le_antisymm (run_price potential price gain hI (fun s i t hs ht => (hpays s i t hs ht).le) hs ht)
    (run_price (α := αᵒᵈ) potential price gain hI (fun s i t hs ht => (hpays s i t hs ht).ge) hs ht)

end Price

/-- Where every state that is no goal has an allowed input by which the potential
falls, a goal is reached by allowed inputs, of which there are no more than the
potential. -/
theorem exists_run_to {I G : σ → Prop} {A : ι → Prop} {potential : σ → Nat}
    (hstep : ∀ s, I s → ¬ G s → ∃ i t, A i ∧ step s i = .ok t ∧ I t ∧ potential t < potential s) {s : σ} (hs : I s) :
    ∃ is t, (∀ i ∈ is, A i) ∧ is.length ≤ potential s ∧ run step s is = .ok t ∧ I t ∧ G t := by
  induction hn : potential s using Nat.strong_induction_on generalizing s with
  | _ n ih =>
    by_cases hgoal : G s
    · exact ⟨[], s, fun i hi => (by cases hi), Nat.zero_le n, rfl, hs, hgoal⟩
    · obtain ⟨i, t, hi, ht, hIt, hlt⟩ := hstep s hs hgoal
      obtain ⟨is, u, hall, hlen, hu, hIu, hgoal⟩ := ih (potential t) (hn ▸ hlt) hIt rfl
      refine ⟨i :: is, u, ?_, ?_, ?_, hIu, hgoal⟩
      · intro j hj
        rcases List.mem_cons.mp hj with rfl | hj
        · exact hi
        · exact hall j hj
      · rw [List.length_cons]
        omega
      · rw [run_ok s i is t ht]
        exact hu

end Rinha.Library
