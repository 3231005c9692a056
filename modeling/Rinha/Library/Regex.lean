import Mathlib.Computability.RegularExpressions

/-! Searching a text for a regular expression.

`occurs r s` runs the derivatives of `r` from every position of `s`. It holds
exactly when some part of `s` is in the language of `r` (`occurs_iff`). A letter
the expression has not got cuts the text: an occurrence lies on one side of it
(`occurs_append`). `search r s` is the match that is reported: of the leftmost words
the longest (`search_leftmost`). -/
namespace Rinha.Library

variable {α : Type*}

/-- One of the letters. -/
def oneOf : List α → RegularExpression α
  | [] => 0
  | a :: rest => .char a + oneOf rest

/-- One letter of each set, in order. -/
def inOrder : List (List α) → RegularExpression α
  | [] => 1
  | l :: rest => oneOf l * inOrder rest

/-- `r+` -/
def atLeastOnce (r : RegularExpression α) : RegularExpression α := r * r.star

def letters : RegularExpression α → List α
  | 0 => []
  | 1 => []
  | .char a => [a]
  | P + Q => letters P ++ letters Q
  | P * Q => letters P ++ letters Q
  | .star P => letters P

/-- The words of an expression are made of its letters. -/
theorem mem_letters {r : RegularExpression α} {w : List α} (hw : w ∈ r.matches') :
    ∀ a ∈ w, a ∈ letters r := by
  induction r generalizing w with
  | zero => exact absurd hw (Language.notMem_zero w)
  | epsilon =>
    rw [(Language.mem_one w).mp hw]
    intro a ha
    cases ha
  | char b =>
    rw [show w = [b] from hw]
    intro a ha
    exact ha
  | plus P Q ihP ihQ =>
    intro a ha
    rcases (Language.mem_add _ _ w).mp hw with h | h
    · exact List.mem_append_left _ (ihP h a ha)
    · exact List.mem_append_right _ (ihQ h a ha)
  | comp P Q ihP ihQ =>
    obtain ⟨u, hu, v, hv, rfl⟩ := Language.mem_mul.mp hw
    intro a ha
    rcases List.mem_append.mp ha with h | h
    · exact List.mem_append_left _ (ihP hu a h)
    · exact List.mem_append_right _ (ihQ hv a h)
  | star P ih =>
    obtain ⟨ws, rfl, hws⟩ := Language.mem_kstar.mp hw
    intro a ha
    obtain ⟨u, hu, hau⟩ := List.mem_flatten.mp ha
    exact ih (hws u hu) a hau

/-! ### Words -/

theorem mem_oneOf {l w : List α} : w ∈ (oneOf l).matches' ↔ ∃ a ∈ l, w = [a] := by
  induction l with
  | nil => exact iff_of_false (Language.notMem_zero w) (by simp)
  | cons b l ih =>
    show w ∈ (RegularExpression.char b).matches' + (oneOf l).matches' ↔ _
    rw [Language.mem_add, ih, List.exists_mem_cons_iff]
    exact Iff.rfl

theorem mem_inOrder {ls : List (List α)} {w : List α} :
    w ∈ (inOrder ls).matches' ↔ List.Forall₂ (fun a l => a ∈ l) w ls := by
  induction ls generalizing w with
  | nil =>
    rw [List.forall₂_nil_right_iff]
    exact Language.mem_one w
  | cons l ls ih =>
    show w ∈ (oneOf l).matches' * (inOrder ls).matches' ↔ _
    rw [Language.mem_mul]
    constructor
    · intro h
      obtain ⟨u, hu, v, hv, rfl⟩ := h
      obtain ⟨a, ha, rfl⟩ := mem_oneOf.mp hu
      exact .cons ha (ih.mp hv)
    · intro h
      cases h with
      | cons ha hrest => exact ⟨_, mem_oneOf.mpr ⟨_, ha, rfl⟩, _, ih.mpr hrest, rfl⟩

theorem mem_atLeastOnce_oneOf {l w : List α} :
    w ∈ (atLeastOnce (oneOf l)).matches' ↔ w ≠ [] ∧ ∀ a ∈ w, a ∈ l := by
  show w ∈ (oneOf l).matches' * KStar.kstar (oneOf l).matches' ↔ _
  rw [Language.mem_mul]
  constructor
  · intro h
    obtain ⟨u, hu, v, hv, rfl⟩ := h
    obtain ⟨a, ha, rfl⟩ := mem_oneOf.mp hu
    obtain ⟨ws, rfl, hws⟩ := Language.mem_kstar.mp hv
    refine ⟨List.cons_ne_nil a _, fun b hb => ?_⟩
    rcases List.mem_cons.mp hb with rfl | hb
    · exact ha
    · obtain ⟨x, hx, hbx⟩ := List.mem_flatten.mp hb
      obtain ⟨c, hc, rfl⟩ := mem_oneOf.mp (hws x hx)
      rw [List.mem_singleton.mp hbx]
      exact hc
  · intro h
    obtain ⟨hne, hw⟩ := h
    obtain ⟨a, rest, rfl⟩ := List.exists_cons_of_ne_nil hne
    refine ⟨[a], mem_oneOf.mpr ⟨a, hw a (List.mem_cons_self ..), rfl⟩, rest, ?_, rfl⟩
    refine Language.mem_kstar.mpr ⟨rest.map fun b => [b], ?_, fun x hx => ?_⟩
    · induction rest with
      | nil => rfl
      | cons b rest ih =>
        rw [List.map_cons, List.flatten_cons, ← ih (by simp) fun c hc => ?_]
        · rfl
        · rcases List.mem_cons.mp hc with rfl | hc
          · exact hw c (List.mem_cons_self ..)
          · exact hw c (List.mem_cons_of_mem _ (List.mem_cons_of_mem b hc))
    · obtain ⟨b, hb, rfl⟩ := List.mem_map.mp hx
      exact mem_oneOf.mpr ⟨b, hw b (List.mem_cons_of_mem a hb), rfl⟩

/-! ### Parts of a text -/

/-- An initial part without the letter `b` ends before it. -/
theorem prefix_of_append_cons {s t w : List α} {b : α} (hb : b ∉ w) (h : w <+: s ++ b :: t) :
    w <+: s := by
  induction s generalizing w with
  | nil =>
    cases w with
    | nil => exact List.nil_prefix
    | cons c w =>
      obtain ⟨rfl, _⟩ := List.cons_prefix_cons.mp h
      exact absurd (List.mem_cons_self ..) hb
  | cons a s ih =>
    cases w with
    | nil => exact List.nil_prefix
    | cons c w =>
      obtain ⟨rfl, htail⟩ := List.cons_prefix_cons.mp h
      exact List.cons_prefix_cons.mpr ⟨rfl, ih (fun hmem => hb (List.mem_cons_of_mem c hmem)) htail⟩

/-- A part without the letter `b` lies on one side of it. -/
theorem infix_of_append_cons {s t w : List α} {b : α} (hb : b ∉ w) (h : w <:+: s ++ b :: t) :
    w <:+: s ∨ w <:+: t := by
  induction s with
  | nil =>
    rcases List.infix_cons_iff.mp h with hpre | hin
    · exact .inl (prefix_of_append_cons (s := []) hb hpre).isInfix
    · exact .inr hin
  | cons a s ih =>
    rcases List.infix_cons_iff.mp h with hpre | hin
    · exact .inl (prefix_of_append_cons (s := a :: s) hb hpre).isInfix
    · rcases ih hin with h' | h'
      · exact .inl (List.infix_cons h')
      · exact .inr h'

/-- A part that begins with the letter `b` begins at it, or lies behind it. -/
theorem infix_of_append_cons_cons {s t w : List α} {b : α} (hb : b ∉ s) (h : b :: w <:+: s ++ b :: t) :
    w <+: t ∨ b :: w <:+: t := by
  induction s with
  | nil =>
    rcases List.infix_cons_iff.mp h with hpre | hin
    · exact .inl (List.cons_prefix_cons.mp hpre).2
    · exact .inr hin
  | cons a s ih =>
    rcases List.infix_cons_iff.mp h with hpre | hin
    · refine absurd ?_ hb
      rw [(List.cons_prefix_cons.mp hpre).1]
      exact List.mem_cons_self ..
    · exact ih (fun hmem => hb (List.mem_cons_of_mem a hmem)) hin

variable [DecidableEq α]

/-- Some initial part of the text matches. -/
def startsWith : RegularExpression α → List α → Bool
  | r, [] => r.matchEpsilon
  | r, a :: s => r.matchEpsilon || startsWith (r.deriv a) s

/-- Some part of the text matches. -/
def occurs (r : RegularExpression α) : List α → Bool
  | [] => startsWith r []
  | a :: s => startsWith r (a :: s) || occurs r s

theorem startsWith_iff (r : RegularExpression α) (s : List α) :
    startsWith r s = true ↔ ∃ w, w ∈ r.matches' ∧ w <+: s := by
  induction s generalizing r with
  | nil =>
    constructor
    · intro h
      exact ⟨[], (r.rmatch_iff_matches' []).mp h, List.nil_prefix⟩
    · rintro ⟨w, hw, hpre⟩
      rw [List.prefix_nil.mp hpre] at hw
      exact (r.rmatch_iff_matches' []).mpr hw
  | cons a s ih =>
    rw [startsWith, Bool.or_eq_true, ih]
    constructor
    · rintro (h | ⟨w, hw, hpre⟩)
      · exact ⟨[], (r.rmatch_iff_matches' []).mp h, List.nil_prefix⟩
      · refine ⟨a :: w, (r.rmatch_iff_matches' _).mp ?_, List.cons_prefix_cons.mpr ⟨rfl, hpre⟩⟩
        exact ((r.deriv a).rmatch_iff_matches' w).mpr hw
    · rintro ⟨w, hw, hpre⟩
      cases w with
      | nil => exact .inl ((r.rmatch_iff_matches' []).mpr hw)
      | cons b w =>
        obtain ⟨rfl, htail⟩ := List.cons_prefix_cons.mp hpre
        refine .inr ⟨w, ((r.deriv b).rmatch_iff_matches' w).mp ?_, htail⟩
        exact (r.rmatch_iff_matches' (b :: w)).mpr hw

theorem occurs_iff (r : RegularExpression α) (s : List α) :
    occurs r s = true ↔ ∃ w, w ∈ r.matches' ∧ w <:+: s := by
  induction s with
  | nil => rw [occurs, startsWith_iff]; simp [List.prefix_nil, List.infix_nil]
  | cons a s ih =>
    rw [occurs, Bool.or_eq_true, startsWith_iff, ih]
    constructor
    · rintro (⟨w, hw, h⟩ | ⟨w, hw, h⟩)
      · exact ⟨w, hw, h.isInfix⟩
      · exact ⟨w, hw, List.infix_cons h⟩
    · rintro ⟨w, hw, h⟩
      rcases List.infix_cons_iff.mp h with h | h
      · exact .inl ⟨w, hw, h⟩
      · exact .inr ⟨w, hw, h⟩

theorem occurs_append {r : RegularExpression α} {b : α} (hb : b ∉ letters r) (s t : List α) :
    occurs r (s ++ b :: t) = (occurs r s || occurs r t) := by
  rw [Bool.eq_iff_iff, Bool.or_eq_true, occurs_iff, occurs_iff, occurs_iff]
  constructor
  · rintro ⟨w, hw, h⟩
    rcases infix_of_append_cons (fun hmem => hb (mem_letters hw b hmem)) h with h | h
    · exact .inl ⟨w, hw, h⟩
    · exact .inr ⟨w, hw, h⟩
  · rintro (⟨w, hw, h⟩ | ⟨w, hw, h⟩)
    · exact ⟨w, hw, h.trans (List.infix_append' [] s (b :: t))⟩
    · exact ⟨w, hw, h.trans ((List.suffix_cons b t).trans (List.suffix_append s _)).isInfix⟩

/-- The parts between such letters can be searched one by one. -/
theorem occurs_splitOnP {r : RegularExpression α} {p : α → Bool} (hp : ∀ b, p b = true → b ∉ letters r) (s : List α) :
    occurs r s = (s.splitOnP p).any (occurs r) := by
  have hprepend : ∀ read, (List.splitOnPPrepend p s read).any (occurs r) = occurs r (read.reverse ++ s) := by
    induction s with
    | nil =>
      intro read
      rw [List.splitOnPPrepend_nil, List.any_cons, List.any_nil, Bool.or_false, List.append_nil]
    | cons b s ih =>
      intro read
      cases hb : p b with
      | true =>
        rw [List.splitOnPPrepend_cons_pos hb, List.any_cons, ← List.splitOnPPrepend_nil_right, ih [],
          occurs_append (hp b hb)]
        rfl
      | false =>
        rw [List.splitOnPPrepend_cons_neg hb, ih (b :: read), List.reverse_cons, List.append_assoc,
          List.singleton_append]
  rw [← List.splitOnPPrepend_nil_right, hprepend []]
  rfl

/-! ### The match that is reported -/

/-- The longest initial part that matches. -/
def longestPrefix : RegularExpression α → List α → Option (List α)
  | r, [] => if r.matchEpsilon then some [] else none
  | r, a :: s =>
    match longestPrefix (r.deriv a) s with
    | some w => some (a :: w)
    | none => if r.matchEpsilon then some [] else none

/-- The text before the first match, and the match. -/
def search (r : RegularExpression α) : List α → Option (List α × List α)
  | [] => (longestPrefix r []).map fun w => ([], w)
  | a :: s =>
    match longestPrefix r (a :: s) with
    | some w => some ([], w)
    | none => (search r s).map fun (before, w) => (a :: before, w)

/-- Of the leftmost words of `r` in `s`, `word` is the longest. -/
structure Leftmost (r : RegularExpression α) (s before word : List α) : Prop where
  mem : word ∈ r.matches'
  here : before ++ word <+: s
  leftmost : ∀ before' w, w ∈ r.matches' → before' ++ w <+: s → before.length ≤ before'.length
  longest : ∀ w, w ∈ r.matches' → before ++ w <+: s → w.length ≤ word.length

theorem longestPrefix_none {r : RegularExpression α} {s : List α} (h : longestPrefix r s = none) :
    ∀ w ∈ r.matches', ¬ w <+: s := by
  induction s generalizing r with
  | nil =>
    intro w hw hpre
    rw [List.prefix_nil.mp hpre] at hw
    have heps : r.matchEpsilon = true := (r.rmatch_iff_matches' []).mpr hw
    rw [longestPrefix, if_pos heps] at h
    cases h
  | cons a s ih =>
    rw [longestPrefix] at h
    split at h
    · cases h
    rename_i hnone
    intro w hw hpre
    cases w with
    | nil =>
      have heps : r.matchEpsilon = true := (r.rmatch_iff_matches' []).mpr hw
      rw [if_pos heps] at h
      cases h
    | cons b w =>
      obtain ⟨rfl, htail⟩ := List.cons_prefix_cons.mp hpre
      have hderiv : w ∈ (r.deriv b).matches' :=
        ((r.deriv b).rmatch_iff_matches' w).mp ((r.rmatch_iff_matches' (b :: w)).mpr hw)
      exact ih hnone w hderiv htail

theorem longestPrefix_some {r : RegularExpression α} {s w : List α} (h : longestPrefix r s = some w) :
    w ∈ r.matches' ∧ w <+: s ∧ ∀ v ∈ r.matches', v <+: s → v.length ≤ w.length := by
  induction s generalizing r w with
  | nil =>
    rw [longestPrefix] at h
    split at h
    · rename_i heps
      cases h
      exact ⟨(r.rmatch_iff_matches' []).mp heps, List.nil_prefix, fun v _ hv => hv.length_le⟩
    · cases h
  | cons a s ih =>
    rw [longestPrefix] at h
    split at h
    · rename_i u hu
      cases h
      obtain ⟨hmem, hpre, hlongest⟩ := ih hu
      refine ⟨?_, List.cons_prefix_cons.mpr ⟨rfl, hpre⟩, fun v hv hvs => ?_⟩
      · exact (r.rmatch_iff_matches' (a :: u)).mp (((r.deriv a).rmatch_iff_matches' u).mpr hmem)
      · cases v with
        | nil => exact Nat.zero_le _
        | cons b v =>
          obtain ⟨rfl, htail⟩ := List.cons_prefix_cons.mp hvs
          have hderiv : v ∈ (r.deriv b).matches' :=
            ((r.deriv b).rmatch_iff_matches' v).mp ((r.rmatch_iff_matches' (b :: v)).mpr hv)
          exact Nat.succ_le_succ (hlongest v hderiv htail)
    · rename_i hnone
      split at h
      · rename_i heps
        cases h
        refine ⟨(r.rmatch_iff_matches' []).mp heps, List.nil_prefix, fun v hv hvs => ?_⟩
        cases v with
        | nil => exact le_refl _
        | cons b v =>
          obtain ⟨rfl, htail⟩ := List.cons_prefix_cons.mp hvs
          have hderiv : v ∈ (r.deriv b).matches' :=
            ((r.deriv b).rmatch_iff_matches' v).mp ((r.rmatch_iff_matches' (b :: v)).mpr hv)
          exact absurd htail (longestPrefix_none hnone v hderiv)
      · cases h

theorem leftmost_of_prefix {r : RegularExpression α} {s w : List α} (h : longestPrefix r s = some w) :
    Leftmost r s [] w := by
  obtain ⟨hmem, hpre, hlongest⟩ := longestPrefix_some h
  exact ⟨hmem, hpre, fun _ _ _ _ => Nat.zero_le _, hlongest⟩

theorem search_leftmost {r : RegularExpression α} {s before word : List α}
    (h : search r s = some (before, word)) : Leftmost r s before word := by
  induction s generalizing before with
  | nil =>
    rw [search, Option.map_eq_some_iff] at h
    obtain ⟨w, hw, heq⟩ := h
    cases heq
    exact leftmost_of_prefix hw
  | cons a s ih =>
    rw [search] at h
    split at h
    · rename_i w hw
      cases h
      exact leftmost_of_prefix hw
    · rename_i hnone
      obtain ⟨⟨b, w⟩, hsearch, heq⟩ := Option.map_eq_some_iff.mp h
      cases heq
      obtain ⟨hmem, hpre, hleftmost, hlongest⟩ := ih hsearch
      refine ⟨hmem, List.cons_prefix_cons.mpr ⟨rfl, hpre⟩, fun b' v hv hvs => ?_, fun v hv hvs => ?_⟩
      · -- A word that begins before the tail begins the text, where none is found.
        cases b' with
        | nil => exact absurd hvs (longestPrefix_none hnone v hv)
        | cons c b' => exact Nat.succ_le_succ (hleftmost b' v hv (List.cons_prefix_cons.mp hvs).2)
      · exact hlongest v hv (List.cons_prefix_cons.mp hvs).2

end Rinha.Library
