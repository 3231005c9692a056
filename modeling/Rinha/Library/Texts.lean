import Rinha.Library.CString

/-! Texts with a bound on their length, and what is behind a mark in a text.

`Text k s` says that `s` is a C string of at most `k` bytes; bounds add up as the
texts are put together. `behind` is the text behind the first occurrence of a mark;
what is in front of it is passed over if the mark cannot begin in it (`Clear`). -/
namespace Rinha.Library

/-! ### Bounded texts -/

/-- At most `k` bytes, none of them a NUL. -/
structure Text (k : Nat) (s : List UInt8) : Prop where
  length : s.length ≤ k
  noNul : 0 ∉ s

instance (k : Nat) (s : List UInt8) : Decidable (Text k s) :=
  decidable_of_iff (s.length ≤ k ∧ 0 ∉ s) ⟨fun h => ⟨h.1, h.2⟩, fun h => ⟨h.1, h.2⟩⟩

namespace Text
variable {j k : Nat} {s t : List UInt8}

theorem ne_zero (h : Text k s) : ∀ b ∈ s, b ≠ 0 := fun _ hb h0 => h.noNul (h0 ▸ hb)

theorem mono (h : Text j s) (hjk : j ≤ k) : Text k s := ⟨h.length.trans hjk, h.noNul⟩

theorem append (hs : Text j s) (ht : Text k t) : Text (j + k) (s ++ t) := by
  constructor
  · rw [List.length_append]
    exact Nat.add_le_add hs.length ht.length
  · exact fun hmem => (List.mem_append.mp hmem).elim hs.noNul ht.noNul

/-- Each element is written with at most `k` bytes. -/
theorem flatMap {α : Type*} {f : α → List UInt8} {l : List α} (h : ∀ a ∈ l, Text k (f a)) :
    Text (k * l.length) (l.flatMap f) := by
  induction l with
  | nil => exact ⟨Nat.zero_le _, List.not_mem_nil⟩
  | cons a rest ih =>
    have hrest := ih fun b hb => h b (List.mem_cons_of_mem a hb)
    rw [List.flatMap_cons, List.length_cons, Nat.mul_succ, Nat.add_comm]
    exact (h a (List.mem_cons_self ..)).append hrest

theorem decimal {n : Nat} (hk : 0 < k) (hn : n < 10 ^ k) : Text k (Library.decimal n) := by
  refine ⟨decimal_length hk hn, fun hmem => ?_⟩
  cases decimal_digits n 0 hmem

theorem decimalInt {z : Int} (hk : 0 < k) (hz : z.natAbs < 10 ^ k) : Text (k + 1) (Library.decimalInt z) := by
  cases z with
  | ofNat n => exact (Text.decimal hk hz).mono (Nat.le_succ k)
  | negSucc n =>
    have hdigits : Text k (Library.decimal (n + 1)) := Text.decimal hk hz
    refine ⟨Nat.succ_le_succ hdigits.length, fun hmem => ?_⟩
    rcases List.mem_cons.mp hmem with h0 | hmem
    · exact absurd h0 (by decide)
    · exact hdigits.noNul hmem

end Text

/-! ### Numbers of a fixed width -/

/-- A number with zeros in front of it, where it has less than `w` digits. -/
def zeroPad (w n : Nat) : List UInt8 := List.replicate (w - (decimal n).length) 48 ++ decimal n

theorem Text.zeroPad {w k n : Nat} (hw : w ≤ k) (hk : 0 < k) (hn : n < 10 ^ k) : Text k (Library.zeroPad w n) := by
  have hdigits : Text k (Library.decimal n) := Text.decimal hk hn
  have hlen := hdigits.length
  constructor
  · rw [Library.zeroPad, List.length_append, List.length_replicate]
    omega
  · intro hmem
    rcases List.mem_append.mp hmem with hmem | hmem
    · cases (List.mem_replicate.mp hmem).2
    · exact hdigits.noNul hmem

/-! ### Marks -/

/-- The text behind the first occurrence of the mark. -/
def behind (mark : List UInt8) : List UInt8 → Option (List UInt8)
  | [] => if mark = [] then some [] else none
  | b :: rest => if mark <+: b :: rest then some ((b :: rest).drop mark.length) else behind mark rest

/-- The mark begins nowhere in the text, whatever is behind it: from each place on
the two differ. -/
def Clear (mark : List UInt8) : List UInt8 → Bool
  | [] => true
  | b :: rest => !(mark.zip (b :: rest)).all (fun p => p.1 = p.2) && Clear mark rest

theorem zip_all_of_prefix {mark s t : List UInt8} (h : mark <+: s ++ t) :
    (mark.zip s).all (fun p => p.1 = p.2) = true := by
  induction mark generalizing s with
  | nil => rfl
  | cons m mark ih =>
    cases s with
    | nil => rfl
    | cons b rest =>
      rw [List.cons_append, List.cons_prefix_cons] at h
      simp only [List.zip_cons_cons, List.all_cons, h.1, decide_true, Bool.true_and]
      exact ih h.2

/-- What is clear is passed over. -/
theorem behind_append {mark s : List UInt8} (h : Clear mark s = true) (t : List UInt8) :
    behind mark (s ++ t) = behind mark t := by
  induction s with
  | nil => rfl
  | cons b rest ih =>
    simp only [Clear, Bool.and_eq_true, Bool.not_eq_true'] at h
    have hnot : ¬ mark <+: b :: (rest ++ t) := by
      intro hprefix
      have hall := zip_all_of_prefix (s := b :: rest) hprefix
      rw [h.1] at hall
      cases hall
    rw [List.cons_append, behind, if_neg hnot]
    exact ih h.2

theorem behind_self {mark : List UInt8} (h : mark ≠ []) (t : List UInt8) : behind mark (mark ++ t) = some t := by
  obtain ⟨m, rest, rfl⟩ := List.exists_cons_of_ne_nil h
  have hprefix : m :: rest <+: m :: (rest ++ t) := List.prefix_append (m :: rest) t
  rw [List.cons_append, behind, if_pos hprefix, ← List.cons_append, List.drop_left]

/-- A text without the mark's first byte is clear of it. -/
theorem clear_of_not_mem {m : UInt8} {mark s : List UInt8} (h : m ∉ s) : Clear (m :: mark) s = true := by
  induction s with
  | nil => rfl
  | cons b rest ih =>
    have hmb : m ≠ b := fun heq => h (heq ▸ List.mem_cons_self ..)
    simp only [Clear, List.zip_cons_cons, List.all_cons, hmb, decide_false, Bool.false_and, Bool.not_false,
      Bool.true_and]
    exact ih fun hmem => h (List.mem_cons_of_mem b hmem)

end Rinha.Library
