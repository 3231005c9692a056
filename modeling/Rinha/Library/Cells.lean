import Mathlib.Data.List.Nodup
import Mathlib.Data.List.Perm.Subperm

/-! Singly linked cells on a heap.

A heap maps an address to the cell stored there, or to nothing when no cell is
allocated at it. `Chain h p cells` says that following `next` from `p` visits
exactly `cells` and ends at the null address; everything else here is what the
three ways of changing a heap (writing a cell, freeing one, cutting a chain and
linking a new cell behind it) do to a chain. -/
namespace Rinha.Library

structure Cell (α : Type*) where
  next : Option Nat
  item : α

abbrev Heap (α : Type*) := Nat → Option (Cell α)

variable {α : Type*}

namespace Heap

def write (h : Heap α) (a : Nat) (c : Cell α) : Heap α := fun b => if b = a then some c else h b

def free (h : Heap α) (a : Nat) : Heap α := fun b => if b = a then none else h b

@[simp] theorem write_self (h : Heap α) (a : Nat) (c : Cell α) : h.write a c a = some c := if_pos rfl

theorem write_ne (h : Heap α) {a b : Nat} (c : Cell α) (hb : b ≠ a) : h.write a c b = h b := if_neg hb

@[simp] theorem free_self (h : Heap α) (a : Nat) : h.free a a = none := if_pos rfl

theorem free_ne (h : Heap α) {a b : Nat} (hb : b ≠ a) : h.free a b = h b := if_neg hb

end Heap

/-- Following `next` from `p` visits these addresses, with these items, and ends. -/
def Chain (h : Heap α) : Option Nat → List (Nat × α) → Prop
  | p, [] => p = none
  | p, (a, x) :: rest => p = some a ∧ ∃ q, h a = some ⟨q, x⟩ ∧ Chain h q rest

namespace Chain
variable {h h' : Heap α} {p : Option Nat} {cells rest : List (Nat × α)}

theorem allocated (hc : Chain h p cells) : ∀ c ∈ cells, h c.1 ≠ none := by
  induction cells generalizing p with
  | nil => intro c hc'; cases hc'
  | cons cell rest ih =>
    obtain ⟨_, q, hq, hrest⟩ := hc
    intro c hmem
    rcases List.mem_cons.mp hmem with rfl | hmem
    · rw [hq]; exact Option.some_ne_none _
    · exact ih hrest c hmem

/-- A chain is determined by where it starts. -/
theorem unique {other : List (Nat × α)} (hc : Chain h p cells) (ho : Chain h p other) :
    cells = other := by
  induction cells generalizing p other with
  | nil =>
    cases other with
    | nil => rfl
    | cons d rest => rw [show p = none from hc] at ho; cases ho.1
  | cons c rest ih =>
    obtain ⟨hp, q, hq, hrest⟩ := hc
    cases other with
    | nil => rw [hp] at ho; cases ho
    | cons d others =>
      obtain ⟨hp', q', hq', hothers⟩ := ho
      have ha : c.1 = d.1 := by rw [hp] at hp'; exact Option.some.inj hp'
      rw [ha, hq'] at hq
      injection hq with hcell
      injection hcell with hnext hitem
      subst hnext
      rw [ih hrest hothers, show c = d from Prod.ext ha hitem.symm]

theorem suffix {front : List (Nat × α)} {a : Nat} {x : α}
    (hc : Chain h p (front ++ (a, x) :: rest)) : Chain h (some a) ((a, x) :: rest) := by
  induction front generalizing p with
  | nil => exact ⟨rfl, hc.2⟩
  | cons c front ih =>
    obtain ⟨_, q, _, hrest⟩ := hc
    exact ih hrest

/-- No address occurs twice: a chain that came back to one would never end. -/
theorem nodup (hc : Chain h p cells) : (cells.map Prod.fst).Nodup := by
  induction cells generalizing p with
  | nil => exact List.nodup_nil
  | cons c rest ih =>
    obtain ⟨hp, q, hq, hrest⟩ := hc
    refine List.nodup_cons.mpr ⟨fun hmem => ?_, ih hrest⟩
    obtain ⟨d, hd, heq⟩ := List.mem_map.mp hmem
    obtain ⟨front, back, hsplit⟩ := List.append_of_mem hd
    have hwhole : Chain h (some c.1) (c :: rest) := ⟨rfl, q, hq, hrest⟩
    rw [hsplit] at hrest
    have hback : Chain h (some d.1) (d :: back) := hrest.suffix
    rw [heq] at hback
    have hlen := congrArg List.length (hwhole.unique hback)
    rw [hsplit] at hlen
    simp only [List.length_cons, List.length_append] at hlen
    omega

theorem congr (hc : Chain h p cells) (hsame : ∀ c ∈ cells, h' c.1 = h c.1) : Chain h' p cells := by
  induction cells generalizing p with
  | nil => exact hc
  | cons c rest ih =>
    obtain ⟨hp, q, hq, hrest⟩ := hc
    refine ⟨hp, q, ?_, ih hrest fun d hd => hsame d (List.mem_cons_of_mem c hd)⟩
    rw [← hq]
    exact hsame c (List.mem_cons_self ..)

/-- Freeing the head leaves the chain behind it. -/
theorem free_head {a : Nat} {x : α} {q : Option Nat} (hc : Chain h p ((a, x) :: rest))
    (hq : h a = some ⟨q, x⟩) : Chain (h.free a) q rest := by
  have hnot : a ∉ rest.map Prod.fst := (List.nodup_cons.mp hc.nodup).1
  obtain ⟨_, q', hq', hrest⟩ := hc
  rw [hq'] at hq
  cases hq
  refine hrest.congr fun c hmem => Heap.free_ne h fun heq => hnot ?_
  rw [← heq]
  exact List.mem_map_of_mem hmem

/-- Linking a new last cell behind the cell at `l` drops whatever followed `l`. -/
theorem relink {front : List (Nat × α)} {l a : Nat} {y x : α}
    (hc : Chain h p (front ++ (l, y) :: rest)) (ha : ∀ c ∈ front, c.1 ≠ a) (hla : l ≠ a) :
    Chain ((h.write a ⟨none, x⟩).write l ⟨some a, y⟩) p (front ++ [(l, y), (a, x)]) := by
  induction front generalizing p with
  | nil =>
    refine ⟨hc.1, some a, Heap.write_self .., rfl, none, ?_, rfl⟩
    rw [Heap.write_ne _ _ hla.symm, Heap.write_self]
  | cons c front ih =>
    have hcl : c.1 ≠ l := by
      intro heq
      have hnot := (List.nodup_cons.mp hc.nodup).1
      apply hnot
      simp [heq]
    obtain ⟨hp, q, hq, hrest⟩ := hc
    refine ⟨hp, q, ?_, ih hrest fun d hd => ha d (List.mem_cons_of_mem c hd)⟩
    rw [Heap.write_ne _ _ hcl, Heap.write_ne _ _ (ha c (List.mem_cons_self ..))]
    exact hq

/-- Distinct addresses below `n` are at most `n`. -/
theorem length_le {n : Nat} (hc : Chain h p cells) (hn : ∀ c ∈ cells, c.1 < n) :
    cells.length ≤ n := by
  have hsub : cells.map Prod.fst ⊆ List.range n := by
    intro a ha
    obtain ⟨c, hmem, rfl⟩ := List.mem_map.mp ha
    exact List.mem_range.mpr (hn c hmem)
  have := (List.subperm_of_subset hc.nodup hsub).length_le
  simpa using this

end Chain

/-- The cells met in at most `n` steps from `p`: their addresses and items. -/
def walk (h : Heap α) : Nat → Option Nat → List (Nat × α)
  | 0, _ => []
  | _ + 1, none => []
  | n + 1, some a =>
    match h a with
    | none => []
    | some c => (a, c.item) :: walk h n c.next

theorem walk_chain {h : Heap α} {p : Option Nat} {cells : List (Nat × α)} (hc : Chain h p cells)
    {n : Nat} (hn : cells.length ≤ n) : walk h n p = cells := by
  induction cells generalizing p n with
  | nil =>
    rw [show p = none from hc]
    cases n <;> rfl
  | cons c rest ih =>
    obtain ⟨hp, q, hq, hrest⟩ := hc
    cases n with
    | zero => exact absurd hn (Nat.not_succ_le_zero _)
    | succ n =>
      subst hp
      simp only [walk, hq, ih hrest (Nat.le_of_succ_le_succ hn)]

end Rinha.Library
