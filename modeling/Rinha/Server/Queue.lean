import Rinha.Library.Cells

/-! The dispatch queue of `server.c`.

`queu_push` and `queu_pop` work on two global pointers into a linked list of
allocated items. Below they act on a heap, as the source does; a pointer to an
item that is not allocated is a fault of the model, and so is the `UNREACHABLE`
branch of the source.

`queu_pop` sets `last` to the item after the new head, whatever the length. So
`last` is not always the last item, and what a push does depends on it. `Line`
is that behaviour without the heap: the items from the head on, and where `last`
points. `push_line` and `pop_line` show the code does exactly this. -/
namespace Rinha.Server
open Library

/-- Why a queue operation does not return. -/
inductive QueueFault where
  /-- `FATAL3("UNREACHABLE! first: ..., last: ...")` -/
  | unreachable
  /-- A pointer to an item that is not allocated is followed. -/
  | dangling
  deriving DecidableEq, Repr

/-- The globals `first` and `last`, the allocated items, and the address the next
`calloc` returns. -/
structure Queue (α : Type*) where
  items : Heap α
  fresh : Nat
  first : Option Nat
  last : Option Nat

namespace Queue
variable {α : Type*}

def empty : Queue α := ⟨fun _ => none, 0, none, none⟩

def queuPush (q : Queue α) (reqres : α) : Except QueueFault (Queue α) :=
  if q.first = none ∧ q.last ≠ none then .error .unreachable
  else
    let qitem := q.fresh
    let items := q.items.write qitem ⟨none, reqres⟩
    let first := if q.first = none then some qitem else q.first
    match q.last with
    | none => .ok ⟨items, q.fresh + 1, first, some qitem⟩
    | some last =>
      match items last with
      | none => .error .dangling
      | some l => .ok ⟨items.write last ⟨some qitem, l.item⟩, q.fresh + 1, first, some qitem⟩

def queuPop (q : Queue α) : Except QueueFault (Option α × Queue α) :=
  if q.first = none ∧ q.last ≠ none then .error .unreachable
  else
    match q.first with
    | none => .ok (none, q)
    | some first =>
      match q.items first with
      | none => .error .dangling
      | some head =>
        let items := q.items.free first
        match head.next with
        | none => .ok (some head.item, {q with items, first := none, last := none})
        | some new_first =>
          match items new_first with
          | none => .error .dangling
          | some c => .ok (some head.item, {q with items, first := some new_first, last := c.next})

/-- The items that can be reached from `first`, with their addresses. -/
def cells (q : Queue α) : List (Nat × α) := walk q.items q.fresh q.first

/-- The requests a `queu_pop` can still reach, in order. -/
def contents (q : Queue α) : List α := q.cells.map Prod.snd

/-- `last` points to the last item that can be reached, if there is one. -/
def LastIsFinal (q : Queue α) : Prop := q.last = q.cells.getLast?.map Prod.fst

instance (q : Queue α) : Decidable q.LastIsFinal := inferInstanceAs (Decidable (_ = _))

end Queue

/-! ### The queue without the heap -/

/-- What `last` points to. -/
inductive Tail where
  /-- The last item, or nothing when there is no item. -/
  | final
  /-- The item after the head, or nothing when there is none, as `queu_pop` leaves it. -/
  | second
  /-- An item that cannot be reached from `first`. -/
  | detached
  deriving DecidableEq, Repr

structure Line (α : Type*) where
  items : List α
  tail : Tail
  deriving DecidableEq, Repr

namespace Line
variable {α : Type*}

/-- Where `queu_pop` leaves `last` when `n` items remain. -/
def tailAfterPop (n : Nat) : Tail := if n = 0 ∨ n = 2 then .final else .second

/-- With `last` on the item after the head, a push cuts the line there; with the
head alone it links the new item to nothing. -/
def push (l : Line α) (x : α) : Line α :=
  match l.tail, l.items with
  | .final, items => ⟨items ++ [x], .final⟩
  | .second, [y] => ⟨[y], .detached⟩
  | .second, items => ⟨items.take 2 ++ [x], .final⟩
  | .detached, items => ⟨items, .detached⟩

def pop (l : Line α) : Option α × Line α :=
  match l.items with
  | [] => (none, l)
  | x :: rest => (some x, ⟨rest, tailAfterPop rest.length⟩)

/-- The lines the operations produce. -/
def WellFormed (l : Line α) : Prop :=
  match l.tail with
  | .final => True
  | .second => l.items.length = 1 ∨ 3 ≤ l.items.length
  | .detached => l.items.length = 1

theorem wellFormed_afterPop (xs : List α) : WellFormed ⟨xs, tailAfterPop xs.length⟩ := by
  unfold WellFormed tailAfterPop
  by_cases h : xs.length = 0 ∨ xs.length = 2
  · rw [if_pos h]; trivial
  · rw [if_neg h]
    show xs.length = 1 ∨ 3 ≤ xs.length
    omega

theorem push_wellFormed (l : Line α) (x : α) (h : l.WellFormed) : (l.push x).WellFormed := by
  obtain ⟨items, tail⟩ := l
  cases tail with
  | final => trivial
  | detached => exact h
  | second =>
    match items with
    | [] => simp [WellFormed] at h
    | [_] => rfl
    | _ :: _ :: _ => trivial

theorem pop_wellFormed (l : Line α) (h : l.WellFormed) : l.pop.2.WellFormed := by
  obtain ⟨items, tail⟩ := l
  cases items with
  | nil => exact h
  | cons x rest => exact wellFormed_afterPop rest

end Line

/-! ### The code's queue is a line -/

variable {α : Type*}

/-- Where `last` points, for a chain of these cells. -/
def LastAt (items : Heap α) (cells : List (Nat × α)) (last : Option Nat) : Tail → Prop
  | .final => last = cells.getLast?.map Prod.fst
  | .second => last = cells[1]?.map Prod.fst
  | .detached => ∃ a c, last = some a ∧ items a = some c ∧ c.next = none ∧ a ∉ cells.map Prod.fst

/-- The queue's reachable items are the line's, and `last` is where the line says. -/
structure Represents (q : Queue α) (l : Line α) (cells : List (Nat × α)) : Prop where
  chain : Chain q.items q.first cells
  items : l.items = cells.map Prod.snd
  last : LastAt q.items cells q.last l.tail
  fresh : ∀ a, q.items a ≠ none → a < q.fresh
  wellFormed : l.WellFormed

def IsLine (q : Queue α) (l : Line α) : Prop := ∃ cells, Represents q l cells

theorem isLine_empty : IsLine (Queue.empty : Queue α) ⟨[], .final⟩ :=
  ⟨[], rfl, rfl, rfl, fun _ h => absurd rfl h, trivial⟩

theorem Represents.below {q : Queue α} {l : Line α} {cells : List (Nat × α)}
    (h : Represents q l cells) : ∀ c ∈ cells, c.1 < q.fresh :=
  fun c hc => h.fresh c.1 (h.chain.allocated c hc)

theorem Represents.cells {q : Queue α} {l : Line α} {cells : List (Nat × α)}
    (h : Represents q l cells) : q.cells = cells :=
  walk_chain h.chain (h.chain.length_le h.below)

theorem IsLine.contents {q : Queue α} {l : Line α} (h : IsLine q l) : q.contents = l.items := by
  obtain ⟨cells, h⟩ := h
  rw [h.items, Queue.contents, h.cells]

/-- On a line `last` is the last item's exactly when its tail is `final`. -/
theorem IsLine.lastIsFinal {q : Queue α} {l : Line α} (h : IsLine q l) :
    q.LastIsFinal ↔ l.tail = .final := by
  obtain ⟨cells, h⟩ := h
  obtain ⟨items, tail⟩ := l
  unfold Queue.LastIsFinal
  rw [h.cells]
  have hlast := h.last
  cases tail with
  | final => exact ⟨fun _ => rfl, fun _ => hlast⟩
  | detached =>
    obtain ⟨a, c, ha, _, _, hnot⟩ := hlast
    refine ⟨fun heq => ?_, nofun⟩
    rw [ha] at heq
    obtain ⟨d, hd, hda⟩ := Option.map_eq_some_iff.mp heq.symm
    exact absurd (List.mem_map.mpr ⟨d, List.mem_of_getLast? hd, hda⟩) hnot
  | second =>
    refine ⟨fun heq => ?_, nofun⟩
    have hwf : items.length = 1 ∨ 3 ≤ items.length := h.wellFormed
    have hitems : items = cells.map Prod.snd := h.items
    rw [hitems, List.length_map] at hwf
    rw [show q.last = cells[1]?.map Prod.fst from hlast] at heq
    have hnodup := h.chain.nodup
    rw [← List.getElem?_map, ← List.getLast?_map, List.getLast?_eq_getElem?] at heq
    have hlen : (cells.map Prod.fst).length = cells.length := List.length_map ..
    rcases hwf with hone | hmore
    · rw [hlen, hone, List.getElem?_eq_none (by omega)] at heq
      exact absurd (List.getElem?_eq_none_iff.mp heq.symm) (by omega)
    · exact absurd heq (List.nodup_iff_getElem?_ne_getElem?.mp hnodup 1 _ (by omega) (by omega))

end Rinha.Server
