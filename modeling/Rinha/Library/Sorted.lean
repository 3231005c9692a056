import Mathlib.Data.List.Perm.Basic
import Mathlib.Data.List.Sort
import Mathlib.Order.Basic

/-! The first elements of a sorted list, when the sort has no tie-break.

Elements are sorted by falling keys and shown by a view, which tells the key. A list
is what every sorting of it shows first, up to `k` elements, exactly when each of these
has a greater key than whatever comes later, or the same view. -/
namespace Rinha.Library

variable {α β τ : Type*} [LinearOrder τ] {key : β → τ}

/-- The elements before `k` are not to be moved by a sort by falling keys. -/
def Unmoved (key : β → τ) (k : Nat) (l : List β) : Prop :=
  ∀ i j b c, i < j → i < k → l[i]? = some b → l[j]? = some c → key c < key b ∨ c = b

theorem Unmoved.tail {k : Nat} {b : β} {l : List β} (h : Unmoved key (k + 1) (b :: l)) : Unmoved key k l :=
  fun i j b c hij hi hb hc => h (i + 1) (j + 1) b c (by omega) (by omega) hb hc

/-- A sorting of a unmoved list has the same elements first. -/
theorem Unmoved.take_eq {k : Nat} {l rows : List β} (h : Unmoved key k l) (hperm : rows.Perm l)
    (hsorted : rows.Pairwise fun b c => key c ≤ key b) : rows.take k = l.take k := by
  induction k generalizing l rows with
  | zero => rw [List.take_zero, List.take_zero]
  | succ k ih =>
    cases l with
    | nil => rw [hperm.eq_nil]
    | cons b l =>
      cases rows with
      | nil => exact absurd hperm.symm.eq_nil (by simp)
      | cons c rows =>
        obtain ⟨hfirst, hrest⟩ := List.pairwise_cons.mp hsorted
        -- `c` has the greatest key, and no other element than `b` can have.
        have hcb : c = b := by
          rcases List.mem_cons.mp (hperm.subset (List.mem_cons_self ..)) with hc | hc
          · exact hc
          · obtain ⟨j, hj⟩ := List.mem_iff_getElem?.mp hc
            rcases h 0 (j + 1) b c (by omega) (by omega) rfl hj with hlt | heq
            · rcases List.mem_cons.mp (hperm.symm.subset (List.mem_cons_self ..)) with hb | hb
              · exact hb.symm
              · exact absurd hlt (not_lt.mpr (hfirst b hb))
            · exact heq
        subst hcb
        rw [List.take_succ_cons, List.take_succ_cons, ih h.tail hperm.cons_inv hrest]

/-- Sorts by falling keys, and what shows as `c` before what has the same key. -/
def sortsBefore [DecidableEq β] (key : β → τ) (view : α → β) (c : β) (a a' : α) : Bool :=
  decide (key (view a') < key (view a)) ||
    (decide (key (view a) = key (view a')) && (decide (view a = c) || !decide (view a' = c)))

theorem sortsBefore_iff [DecidableEq β] {view : α → β} {c : β} {a a' : α} : sortsBefore key view c a a' = true ↔
    key (view a') < key (view a) ∨ key (view a) = key (view a') ∧ (view a = c ∨ view a' ≠ c) := by
  simp [sortsBefore]

theorem sorted_sortsBefore [DecidableEq β] (view : α → β) (c : β) (l : List α) :
    (l.mergeSort (sortsBefore key view c)).Pairwise fun a a' => sortsBefore key view c a a' = true := by
  refine List.pairwise_mergeSort (fun a b d hab hbd => ?_) (fun a b => ?_) l
  · rw [sortsBefore_iff] at hab hbd ⊢
    rcases hab with hab | ⟨hab, hac⟩
    · rcases hbd with hbd | ⟨hbd, _⟩
      · exact .inl (hbd.trans hab)
      · exact .inl (hbd ▸ hab)
    · rcases hbd with hbd | ⟨hbd, hbc⟩
      · exact .inl (hab ▸ hbd)
      · refine .inr ⟨hab.trans hbd, ?_⟩
        tauto
  · rw [Bool.or_eq_true, sortsBefore_iff, sortsBefore_iff]
    rcases lt_trichotomy (key (view a)) (key (view b)) with hlt | heq | hgt
    · exact .inr (.inl hlt)
    · have := heq.symm
      tauto
    · exact .inl (.inl hgt)

/-- **The first `k` of every sorting**: they show as the first `k` of the list exactly
when these are unmoved. -/
theorem take_sorted_iff (view : α → β) (k : Nat) (l : List α) :
    (∀ rows : List α, rows.Perm l → (rows.Pairwise fun a a' => key (view a') ≤ key (view a)) →
      (rows.take k).map view = (l.take k).map view) ↔ Unmoved key k (l.map view) := by
  classical
  constructor
  · intro h i j b c hij hi hb hc
    -- A sorting in which what shows as `c` comes before what has the same key.
    have hsorted : (l.mergeSort (sortsBefore key view c)).Pairwise fun a a' => sortsBefore key view c a a' = true :=
      sorted_sortsBefore view c l
    have hperm : (l.mergeSort (sortsBefore key view c)).Perm l := List.mergeSort_perm l _
    revert hsorted hperm
    generalize l.mergeSort (sortsBefore key view c) = rows
    intro hsorted hperm
    have htake := h rows hperm (hsorted.imp fun hab => (sortsBefore_iff.mp hab).elim le_of_lt fun heq => heq.1.ge)
    rw [List.map_take, List.map_take] at htake
    have htake' : (rows.map view).take (i + 1) = (l.map view).take (i + 1) := by
      have hcut := congrArg (List.take (i + 1)) htake
      rwa [List.take_take, List.take_take, Nat.min_eq_left (by omega)] at hcut
    have hb' : (rows.map view)[i]? = some b := by
      have hget := congrArg (fun m => m[i]?) htake'
      simpa only [List.getElem?_take, Nat.lt_succ_self, if_true, hb] using hget
    have hc' : c ∈ (rows.map view).drop (i + 1) := by
      have hdrop : ((rows.map view).drop (i + 1)).Perm ((l.map view).drop (i + 1)) := by
        refine (List.perm_append_left_iff ((l.map view).take (i + 1))).mp ?_
        rw [List.take_append_drop, ← htake', List.take_append_drop]
        exact hperm.map view
      refine hdrop.symm.subset (List.mem_iff_getElem?.mpr ⟨j - (i + 1), ?_⟩)
      rw [List.getElem?_drop, Nat.add_sub_cancel' hij]
      exact hc
    obtain ⟨m, hm⟩ := List.mem_iff_getElem?.mp hc'
    rw [List.getElem?_drop, List.getElem?_map] at hm
    rw [List.getElem?_map] at hb'
    obtain ⟨a, ha, rfl⟩ := Option.map_eq_some_iff.mp hb'
    obtain ⟨a', ha', rfl⟩ := Option.map_eq_some_iff.mp hm
    obtain ⟨hlt, rfl⟩ := List.getElem?_eq_some_iff.mp ha
    obtain ⟨hlt', rfl⟩ := List.getElem?_eq_some_iff.mp ha'
    have horder := List.pairwise_iff_getElem.mp hsorted i (i + 1 + m) hlt hlt' (by omega)
    rcases sortsBefore_iff.mp horder with hkey | ⟨_, heq | hne⟩
    · exact .inl hkey
    · exact .inr heq.symm
    · exact absurd rfl hne
  · intro h rows hperm hsorted
    rw [List.map_take, List.map_take]
    refine h.take_eq (hperm.map view) ?_
    exact List.pairwise_map.mpr hsorted

end Rinha.Library
