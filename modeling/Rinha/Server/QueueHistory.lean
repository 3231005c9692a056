import Rinha.Server.QueueProofs

/-! Histories of the dispatch queue.

Any sequence of calls runs to its end (`observed_line`). It is that of a FIFO
queue, in what it returns and in what it leaves queued, exactly when no push
comes right after a pop that left one item, or three or more
(`fifo_iff_undisturbed`): there `last` is not the last item, so the push drops
an item, and a dropped item never comes back (`conserved`). -/
namespace Rinha.Server
open Library

variable {α : Type*}

inductive Call (α : Type*) where
  | push (reqres : α)
  | pop
  deriving DecidableEq, Repr

namespace Queue

/-- What the pops return, and the queue the calls leave. -/
def calls : Queue α → List (Call α) → Except QueueFault (List (Option α) × Queue α)
  | q, [] => .ok ([], q)
  | q, .push x :: rest =>
    match q.queuPush x with
    | .ok q' => q'.calls rest
    | .error e => .error e
  | q, .pop :: rest =>
    match q.queuPop with
    | .ok (r, q') =>
      match q'.calls rest with
      | .ok (rs, q'') => .ok (r :: rs, q'')
      | .error e => .error e
    | .error e => .error e

/-- What can be seen of the calls from the empty queue: what the pops return, and
what can still be popped. -/
def observed (cs : List (Call α)) : Except QueueFault (List (Option α) × List α) :=
  match (empty : Queue α).calls cs with
  | .ok (rs, q) => .ok (rs, q.contents)
  | .error e => .error e

end Queue

/-- An ideal FIFO queue on the same calls. -/
def ideal : List α → List (Call α) → List (Option α) × List α
  | items, [] => ([], items)
  | items, .push x :: rest => ideal (items ++ [x]) rest
  | items, .pop :: rest => (items.head? :: (ideal items.tail rest).1, (ideal items.tail rest).2)

/-- The calls see a FIFO queue. -/
def Fifo (cs : List (Call α)) : Prop := Queue.observed cs = .ok (ideal [] cs)

/-- No push comes right after a pop that left one item, or three or more. `n` is
the number of items queued, `short` whether the last call was such a pop. -/
def Undisturbed : Nat → Bool → List (Call α) → Prop
  | _, _, [] => True
  | n, short, .push _ :: rest => short = false ∧ Undisturbed (n + 1) false rest
  | n, _, .pop :: rest => Undisturbed (n - 1) (decide (n - 1 = 1 ∨ 3 ≤ n - 1)) rest

/-! ### The line's histories -/

namespace Line

def calls : Line α → List (Call α) → List (Option α) × Line α
  | l, [] => ([], l)
  | l, .push x :: rest => (l.push x).calls rest
  | l, .pop :: rest => (l.pop.1 :: (l.pop.2.calls rest).1, (l.pop.2.calls rest).2)

end Line

theorem calls_line {q : Queue α} {l : Line α} (h : IsLine q l) (cs : List (Call α)) :
    ∃ q', q.calls cs = .ok ((l.calls cs).1, q') ∧ IsLine q' (l.calls cs).2 := by
  induction cs generalizing q l with
  | nil => exact ⟨q, rfl, h⟩
  | cons c rest ih =>
    cases c with
    | push x =>
      obtain ⟨q', hq', hline⟩ := push_line h x
      simp only [Queue.calls, Line.calls, hq']
      exact ih hline
    | pop =>
      obtain ⟨q', hq', hline⟩ := pop_line h
      obtain ⟨q'', hq'', hline'⟩ := ih hline
      exact ⟨q'', by simp only [Queue.calls, Line.calls, hq', hq''], hline'⟩

/-- The calls return, and what they show is the line's history. -/
theorem observed_line (cs : List (Call α)) :
    Queue.observed cs =
      .ok (((⟨[], .final⟩ : Line α).calls cs).1, ((⟨[], .final⟩ : Line α).calls cs).2.items) := by
  obtain ⟨q, hq, hline⟩ := calls_line (isLine_empty : IsLine (Queue.empty : Queue α) _) cs
  simp only [Queue.observed, hq, hline.contents]

/-! ### Nothing is made up, and nothing comes back -/

def pushes : List (Call α) → Nat
  | [] => 0
  | .push _ :: rest => pushes rest + 1
  | .pop :: rest => pushes rest

/-- The items that were returned. -/
def returned (rs : List (Option α)) : Nat := (rs.filter Option.isSome).length

theorem returned_cons (r : Option α) (rs : List (Option α)) :
    returned (r :: rs) = returned rs + r.toList.length := by
  cases r <;> simp [returned]

theorem length_push_le (l : Line α) (x : α) (h : l.WellFormed) :
    (l.push x).items.length ≤ l.items.length + 1 := by
  obtain ⟨items, tail⟩ := l
  cases tail with
  | final => simp [Line.push]
  | detached => simp [Line.push]
  | second =>
    rcases items with _ | ⟨y, _ | ⟨z, rest⟩⟩
    · simp [Line.push]
    · simp [Line.push]
    · simp [Line.push]

theorem length_push_lt (items : List α) (x : α) (h : Line.WellFormed ⟨items, .second⟩) :
    (Line.push ⟨items, .second⟩ x).items.length < items.length + 1 := by
  have hlen : items.length = 1 ∨ 3 ≤ items.length := h
  rcases items with _ | ⟨y, _ | ⟨z, rest⟩⟩
  · simp at hlen
  · simp [Line.push]
  · simp [Line.push] at hlen ⊢
    omega

theorem length_pop (l : Line α) :
    l.pop.2.items.length + l.pop.1.toList.length = l.items.length := by
  obtain ⟨items, tail⟩ := l
  cases items <;> simp [Line.pop]

/-- A line returns and keeps at most what it held and was pushed. -/
theorem conserved (cs : List (Call α)) (l : Line α) (h : l.WellFormed) :
    returned (l.calls cs).1 + (l.calls cs).2.items.length ≤ l.items.length + pushes cs := by
  induction cs generalizing l with
  | nil => simp [Line.calls, returned, pushes]
  | cons c rest ih =>
    cases c with
    | push x =>
      have := ih _ (l.push_wellFormed x h)
      have := length_push_le l x h
      simp only [Line.calls, pushes]
      omega
    | pop =>
      have := ih _ (l.pop_wellFormed h)
      have := length_pop l
      simp only [Line.calls, pushes, returned_cons]
      omega

/-- A FIFO queue returns and keeps exactly what it held and was pushed. -/
theorem ideal_conserved (cs : List (Call α)) (items : List α) :
    returned (ideal items cs).1 + (ideal items cs).2.length = items.length + pushes cs := by
  induction cs generalizing items with
  | nil => simp [ideal, returned, pushes]
  | cons c rest ih =>
    cases c with
    | push x =>
      have := ih (items ++ [x])
      simp only [ideal, pushes, List.length_append, List.length_singleton] at this ⊢
      omega
    | pop =>
      have := ih items.tail
      simp only [ideal, pushes, returned_cons]
      cases items <;> simp at this ⊢ <;> omega

/-! ### When the line is a FIFO queue -/

/-- Where `last` is after a call that left `n` items, unless items were lost. -/
def tailOf (short : Bool) : Tail := if short then .second else .final

theorem tailOf_afterPop (n : Nat) :
    tailOf (decide (n = 1 ∨ 3 ≤ n)) = Line.tailAfterPop n := by
  unfold tailOf Line.tailAfterPop
  by_cases h : n = 0 ∨ n = 2
  · rw [if_pos h, if_neg]
    simp only [decide_eq_true_eq]
    omega
  · rw [if_neg h, if_pos]
    simp only [decide_eq_true_eq]
    omega

theorem line_iff_undisturbed (cs : List (Call α)) (items : List α) (short : Bool)
    (h : short = true → items.length = 1 ∨ 3 ≤ items.length) :
    (((⟨items, tailOf short⟩ : Line α).calls cs).1,
        ((⟨items, tailOf short⟩ : Line α).calls cs).2.items) = ideal items cs ↔
      Undisturbed items.length short cs := by
  induction cs generalizing items short with
  | nil => simp [Line.calls, ideal, Undisturbed]
  | cons c rest ih =>
    cases c with
    | push x =>
      cases short with
      | false =>
        have := ih (items ++ [x]) false (by simp)
        simpa [Line.calls, Line.push, tailOf, ideal, Undisturbed] using this
      | true =>
        -- The push loses an item: the two histories can no longer add up.
        refine ⟨fun heq => ?_, fun hu => by simp [Undisturbed] at hu⟩
        have hwf : Line.WellFormed ⟨items, .second⟩ := h rfl
        have hlost := length_push_lt items x hwf
        have hle := conserved rest _ (Line.push_wellFormed _ x hwf)
        have hsum := ideal_conserved rest (items ++ [x])
        have h1 := congrArg Prod.fst heq
        have h2 := congrArg Prod.snd heq
        simp only [Line.calls, tailOf, ideal, if_true] at h1 h2
        rw [← h1, ← h2, List.length_append, List.length_singleton] at hsum
        omega
    | pop =>
      cases items with
      | nil =>
        have hshort : short = false := by
          cases short with
          | false => rfl
          | true => simpa using h rfl
        subst hshort
        have := ih [] false (by simp)
        simpa [Line.calls, Line.pop, tailOf, ideal, Undisturbed, Prod.ext_iff] using this
      | cons y ys =>
        have := ih ys (decide (ys.length = 1 ∨ 3 ≤ ys.length)) (by simp)
        rw [tailOf_afterPop] at this
        simp only [Line.calls, Line.pop, ideal, Undisturbed, List.head?_cons, List.tail_cons,
          List.length_cons, Nat.add_sub_cancel]
        rw [← this]
        simp [Prod.ext_iff]

/-- **The queue is a FIFO queue on exactly the undisturbed calls.** -/
theorem fifo_iff_undisturbed (cs : List (Call α)) : Fifo cs ↔ Undisturbed 0 false cs := by
  unfold Fifo
  rw [observed_line, Except.ok.injEq]
  exact line_iff_undisturbed cs [] false (by simp)

/-- Three requests, of which the third is pushed while the second waits alone: the
third is never returned. -/
theorem queue_loses_third :
    Queue.observed [.push 1, .push 2, .pop, .push 3, .pop, .pop] =
        .ok ([some 1, some 2, none], []) ∧
      ideal ([] : List Nat) [.push 1, .push 2, .pop, .push 3, .pop, .pop] =
        ([some 1, some 2, some 3], []) ∧
      ¬ Fifo ([.push 1, .push 2, .pop, .push 3, .pop, .pop] : List (Call Nat)) := by
  have hobserved : Queue.observed [.push 1, .push 2, .pop, .push 3, .pop, .pop] =
      .ok ([some 1, some 2, none], []) := by decide
  refine ⟨hobserved, by decide, fun h => ?_⟩
  unfold Fifo at h
  rw [hobserved] at h
  exact absurd h (by decide)

end Rinha.Server
