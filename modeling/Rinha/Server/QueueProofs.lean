import Rinha.Server.Queue

/-! The queue operations, on the heap and on the line.

`push_line` and `pop_line`: on a queue that represents a line, `queu_push` and
`queu_pop` return, without following a dangling pointer and without reaching
their `UNREACHABLE` branch, and the queue they leave represents the line that
`Line.push` and `Line.pop` leave. -/
namespace Rinha.Server
open Library

variable {α : Type*}

namespace Queue

theorem queuPush_unlinked (q : Queue α) (x : α) (hlast : q.last = none) :
    q.queuPush x = .ok ⟨q.items.write q.fresh ⟨none, x⟩, q.fresh + 1,
      if q.first = none then some q.fresh else q.first, some q.fresh⟩ := by
  simp [queuPush, hlast]

theorem queuPush_linked (q : Queue α) (x : α) {l : Nat} {c : Cell α} (hfirst : q.first ≠ none)
    (hlast : q.last = some l) (hl : q.items l = some c) (hlt : l < q.fresh) :
    q.queuPush x = .ok ⟨(q.items.write q.fresh ⟨none, x⟩).write l ⟨some q.fresh, c.item⟩,
      q.fresh + 1, q.first, some q.fresh⟩ := by
  have hne : l ≠ q.fresh := Nat.ne_of_lt hlt
  simp [queuPush, hlast, hfirst, Heap.write_ne _ _ hne, hl]

theorem queuPop_empty (q : Queue α) (hfirst : q.first = none) (hlast : q.last = none) :
    q.queuPop = .ok (none, q) := by
  simp [queuPop, hfirst, hlast]

theorem queuPop_only (q : Queue α) {a : Nat} {x : α} (hfirst : q.first = some a)
    (ha : q.items a = some ⟨none, x⟩) :
    q.queuPop = .ok (some x, {q with items := q.items.free a, first := none, last := none}) := by
  simp [queuPop, hfirst, ha]

theorem queuPop_next (q : Queue α) {a b : Nat} {x : α} {c : Cell α} (hfirst : q.first = some a)
    (ha : q.items a = some ⟨some b, x⟩) (hb : q.items b = some c) (hab : b ≠ a) :
    q.queuPop =
      .ok (some x, {q with items := q.items.free a, first := some b, last := c.next}) := by
  simp [queuPop, hfirst, ha, Heap.free_ne _ hab, hb]

end Queue

/-! ### Pushing -/

theorem write_fresh {h : Heap α} {n : Nat} (hn : ∀ a, h a ≠ none → a < n) (c : Cell α) :
    ∀ a, h.write n c a ≠ none → a < n + 1 := by
  intro a ha
  by_cases hne : a = n
  · omega
  · rw [Heap.write_ne _ _ hne] at ha
    have := hn a ha
    omega

theorem write_write_fresh {h : Heap α} {n l : Nat} (hn : ∀ a, h a ≠ none → a < n) (hl : l < n)
    (c d : Cell α) : ∀ a, (h.write n c).write l d a ≠ none → a < n + 1 := by
  intro a ha
  by_cases hne : a = l
  · omega
  · rw [Heap.write_ne _ _ hne] at ha
    exact write_fresh hn c a ha

/-- A link from a reachable cell to the new item cuts the chain there. -/
theorem represents_link {q : Queue α} {l : Line α} {front rest : List (Nat × α)} {b : Nat} {y : α}
    (h : Represents q l (front ++ (b, y) :: rest)) (hlast : q.last = some b) (x : α) :
    ∃ q', q.queuPush x = .ok q' ∧
      IsLine q' ⟨front.map Prod.snd ++ [y, x], .final⟩ := by
  have hb : b < q.fresh := h.below (b, y) (by simp)
  have hfirst : q.first ≠ none := by
    intro hnone
    have hc := h.chain
    rw [hnone] at hc
    cases front with
    | nil => cases hc.1
    | cons c front => cases hc.1
  have hcell : ∃ n, q.items b = some ⟨n, y⟩ := by
    obtain ⟨_, n, hn, _⟩ := h.chain.suffix
    exact ⟨n, hn⟩
  obtain ⟨n, hn⟩ := hcell
  refine ⟨_, Queue.queuPush_linked q x hfirst hlast hn hb, front ++ [(b, y), (q.fresh, x)], ?_⟩
  refine ⟨h.chain.relink (fun c hc => ?_) (Nat.ne_of_lt hb), by simp, by simp [LastAt],
    write_write_fresh h.fresh hb _ _, trivial⟩
  exact Nat.ne_of_lt (h.below c (List.mem_append_left _ hc))

/-- An item linked to nothing that is reachable leaves the line as it was, but
for `last`. -/
theorem represents_lost {q q' : Queue α} {l : Line α} {cells : List (Nat × α)} {x : α}
    (h : Represents q l cells) (hone : l.items.length = 1) (hfirst : q'.first = q.first)
    (hlast : q'.last = some q.fresh) (hfresh : q'.fresh = q.fresh + 1)
    (hnew : q'.items q.fresh = some ⟨none, x⟩) (hsame : ∀ c ∈ cells, q'.items c.1 = q.items c.1)
    (hall : ∀ a, q'.items a ≠ none → a < q.fresh + 1) : IsLine q' ⟨l.items, .detached⟩ := by
  refine ⟨cells, ?_, h.items, ⟨q.fresh, _, hlast, hnew, rfl, fun hmem => ?_⟩, ?_, hone⟩
  · rw [hfirst]
    exact h.chain.congr hsame
  · obtain ⟨c, hc, heq⟩ := List.mem_map.mp hmem
    exact absurd (h.below c hc) (by omega)
  · rw [hfresh]
    exact hall

theorem push_line {q : Queue α} {l : Line α} (h : IsLine q l) (x : α) :
    ∃ q', q.queuPush x = .ok q' ∧ IsLine q' (l.push x) := by
  obtain ⟨cells, h⟩ := h
  obtain ⟨items, tail⟩ := l
  have hitems : items = cells.map Prod.snd := h.items
  cases tail with
  | final =>
    rcases List.eq_nil_or_concat cells with rfl | ⟨front, ⟨b, y⟩, rfl⟩
    · have hfirst : q.first = none := h.chain
      refine ⟨_, Queue.queuPush_unlinked q x h.last, [(q.fresh, x)], ?_⟩
      refine ⟨⟨by simp [hfirst], none, Heap.write_self .., rfl⟩, by simp [Line.push, hitems], rfl,
        write_fresh h.fresh _, trivial⟩
    · rw [List.concat_eq_append] at h hitems
      obtain ⟨q', hq', hline⟩ := represents_link h (by simpa [LastAt] using h.last) x
      refine ⟨q', hq', ?_⟩
      have hpush : Line.push ⟨items, .final⟩ x = ⟨front.map Prod.snd ++ [y, x], .final⟩ := by
        simp [Line.push, hitems]
      rw [hpush]
      exact hline
  | second =>
    have hlen : items.length = 1 ∨ 3 ≤ items.length := h.wellFormed
    match cells, h, hitems with
    | [], h, hitems => simp [hitems] at hlen
    | [(a, y)], h, hitems =>
      subst hitems
      have hlast : q.last = none := h.last
      have hfirst : q.first = some a := h.chain.1
      refine ⟨_, Queue.queuPush_unlinked q x hlast, ?_⟩
      refine represents_lost h rfl (by simp [hfirst]) rfl rfl (Heap.write_self ..) ?_
        (write_fresh h.fresh _)
      exact fun c hc => Heap.write_ne _ _ (Nat.ne_of_lt (h.below c hc))
    | [(a, y), (b, z)], h, hitems => simp [hitems] at hlen
    | (a, y) :: (b, z) :: c :: rest, h, hitems =>
      subst hitems
      have hfront : Represents q _ ([(a, y)] ++ (b, z) :: c :: rest) := h
      obtain ⟨q', hq', hline⟩ := represents_link hfront h.last x
      exact ⟨q', hq', hline⟩
  | detached =>
    obtain ⟨a, c, hlast, ha, _, hnot⟩ := h.last
    have hone : items.length = 1 := h.wellFormed
    have halt : a < q.fresh := h.fresh a (by rw [ha]; exact Option.some_ne_none c)
    have hfirst : q.first ≠ none := by
      intro hnone
      have hc := h.chain
      cases cells with
      | nil => rw [hitems] at hone; cases hone
      | cons d rest => rw [hnone] at hc; cases hc.1
    refine ⟨_, Queue.queuPush_linked q x hfirst hlast ha halt, ?_⟩
    refine represents_lost (x := x) h hone rfl rfl rfl ?_ (fun d hd => ?_)
      (write_write_fresh h.fresh halt _ _)
    · show Heap.write _ _ _ _ = _
      rw [Heap.write_ne _ _ (Nat.ne_of_gt halt), Heap.write_self]
    · show Heap.write _ _ _ _ = _
      have hda : d.1 ≠ a := by
        intro heq
        rw [← heq] at hnot
        exact hnot (List.mem_map_of_mem hd)
      rw [Heap.write_ne _ _ hda, Heap.write_ne _ _ (Nat.ne_of_lt (h.below d hd))]

/-! ### Popping -/

theorem chain_start {h : Heap α} {p : Option Nat} {cells : List (Nat × α)} (hc : Chain h p cells) :
    p = cells.head?.map Prod.fst := by
  cases cells with
  | nil => exact hc
  | cons c rest => exact hc.1

/-- After a pop `last` is the second of the remaining cells, which is the final
one when none or two remain. -/
theorem lastAt_afterPop (items : Heap α) (c : Nat × α) (rest : List (Nat × α)) :
    LastAt items (c :: rest) (rest.head?.map Prod.fst) (Line.tailAfterPop (rest.length + 1)) := by
  unfold Line.tailAfterPop
  match rest with
  | [] => rfl
  | [d] => rfl
  | d :: e :: rest => simp [LastAt]

theorem free_fresh {h : Heap α} {n a : Nat} (hn : ∀ b, h b ≠ none → b < n) :
    ∀ b, h.free a b ≠ none → b < n := by
  intro b hb
  by_cases hne : b = a
  · subst hne; exact absurd (Heap.free_self h b) hb
  · rw [Heap.free_ne _ hne] at hb
    exact hn b hb

theorem pop_line {q : Queue α} {l : Line α} (h : IsLine q l) :
    ∃ q', q.queuPop = .ok (l.pop.1, q') ∧ IsLine q' l.pop.2 := by
  obtain ⟨cells, h⟩ := h
  obtain ⟨items, tail⟩ := l
  have hitems : items = cells.map Prod.snd := h.items
  match cells, h, hitems with
  | [], h, hitems =>
    subst hitems
    have hfirst : q.first = none := h.chain
    have hlast : q.last = none := by
      have hwf := h.wellFormed
      have hl := h.last
      cases tail with
      | final => exact hl
      | second => exact hl
      | detached => cases hwf
    exact ⟨q, Queue.queuPop_empty q hfirst hlast, [], h⟩
  | [(a, x)], h, hitems =>
    subst hitems
    obtain ⟨hfirst, n, ha, hn⟩ := h.chain
    rw [show n = none from hn] at ha
    refine ⟨_, Queue.queuPop_only q hfirst ha, [], rfl, rfl, rfl, free_fresh h.fresh, trivial⟩
  | (a, x) :: (b, y) :: rest, h, hitems =>
    subst hitems
    have hnodup := h.chain.nodup
    obtain ⟨hfirst, n, ha, hn, m, hb, hm⟩ := h.chain
    rw [hn] at ha
    have hab : b ≠ a := by
      intro heq
      simp [heq] at hnodup
    refine ⟨_, Queue.queuPop_next q hfirst ha hb hab, (b, y) :: rest, ?_⟩
    refine ⟨h.chain.free_head ha, rfl, ?_, free_fresh h.fresh, ?_⟩
    · show LastAt _ _ m (Line.tailAfterPop _)
      rw [chain_start hm]
      simpa using lastAt_afterPop (q.items.free a) (b, y) rest
    · exact Line.pop_wellFormed _ h.wellFormed

/-! ### The queue's contents -/

def Queue.Sound (q : Queue α) : Prop := ∃ l, IsLine q l

theorem pop_contents {q : Queue α} (h : q.Sound) : ∃ q', q'.Sound ∧
    ((q.contents = [] ∧ q'.contents = [] ∧ q.queuPop = .ok (none, q')) ∨
      ∃ x, q.contents = x :: q'.contents ∧ q.queuPop = .ok (some x, q')) := by
  obtain ⟨l, hl⟩ := h
  obtain ⟨q', hq', hl'⟩ := pop_line hl
  refine ⟨q', ⟨_, hl'⟩, ?_⟩
  rw [hl.contents, hl'.contents, hq']
  obtain ⟨items, tail⟩ := l
  cases items with
  | nil => exact .inl ⟨rfl, rfl, rfl⟩
  | cons x rest => exact .inr ⟨x, rfl, rfl⟩

/-- A push leaves the queued items in their order, with the new one behind them;
all of them are there exactly when `last` was the last item. -/
theorem push_contents {q : Queue α} (h : q.Sound) (x : α) : ∃ q', q'.Sound ∧ q.queuPush x = .ok q' ∧
    q'.contents.Sublist (q.contents ++ [x]) ∧
      (q.LastIsFinal ↔ q'.contents = q.contents ++ [x]) := by
  obtain ⟨l, hl⟩ := h
  obtain ⟨q', hq', hl'⟩ := push_line hl x
  refine ⟨q', ⟨_, hl'⟩, hq', ?_⟩
  rw [hl.lastIsFinal, hl.contents, hl'.contents]
  have hwf : l.WellFormed := hl.choose_spec.wellFormed
  obtain ⟨items, tail⟩ := l
  cases tail with
  | final => exact ⟨List.Sublist.refl _, by simp [Line.push]⟩
  | detached =>
    refine ⟨List.sublist_append_left items [x], ?_⟩
    simp [Line.push]
  | second =>
    rcases items with _ | ⟨y, _ | ⟨z, _ | ⟨w, rest⟩⟩⟩
    · exact absurd hwf (by simp [Line.WellFormed])
    · refine ⟨List.sublist_append_left [y] [x], ?_⟩
      simp [Line.push]
    · exact absurd hwf (by simp [Line.WellFormed])
    · refine ⟨?_, ?_⟩
      · exact ((List.nil_sublist (w :: rest)).append (List.Sublist.refl [x])).cons_cons z |>.cons_cons y
      · simp [Line.push]

end Rinha.Server
