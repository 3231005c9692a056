import Mathlib.Data.List.Induction
import Rinha.Library.Runs

/-! Histories that replay.

A machine keeps a history of what has happened, and there is a view of its state. A
history replays when its events, one after the other, take the view it began with to
the view there is now, each at one point (`Replays`). Where every step's own events
do, so does the history of every run (`replays_throughout`). -/
namespace Rinha.Library

variable {σ ι ε τ ω : Type*} {step : σ → ι → Except ε σ}

/-- The events take one view to the other, each as `point` allows. -/
inductive Replays (point : τ → ω → τ → Prop) : τ → List ω → τ → Prop where
  | nil (t : τ) : Replays point t [] t
  | concat {t u v : τ} {events : List ω} {e : ω} (h : Replays point t events u) (he : point u e v) :
      Replays point t (events ++ [e]) v

variable {point : τ → ω → τ → Prop}

theorem Replays.single {t u : τ} {e : ω} (h : point t e u) : Replays point t [e] u := .concat (.nil t) h

theorem Replays.last {t v : τ} {events : List ω} {e : ω} (h : Replays point t (events ++ [e]) v) :
    ∃ u, Replays point t events u ∧ point u e v := by
  generalize hall : events ++ [e] = all at h
  cases h with
  | nil => exact absurd hall (List.append_ne_nil_of_right_ne_nil events (List.cons_ne_nil e []))
  | concat h he =>
    obtain ⟨hevents, heq⟩ := List.append_inj' hall rfl
    cases heq
    exact ⟨_, hevents ▸ h, he⟩

theorem Replays.append {t u v : τ} {events more : List ω} (h : Replays point t events u)
    (h' : Replays point u more v) : Replays point t (events ++ more) v := by
  induction h' with
  | nil => rwa [List.append_nil]
  | concat _ he ih =>
    rw [← List.append_assoc]
    exact .concat ih he

/-- Each event has its point in a history that replays. -/
theorem Replays.split {t v : τ} {events more : List ω} {e : ω} (h : Replays point t (events ++ e :: more) v) :
    ∃ u w, Replays point t events u ∧ point u e w ∧ Replays point w more v := by
  induction more using List.reverseRecOn generalizing v with
  | nil =>
    obtain ⟨u, h, he⟩ := h.last
    exact ⟨u, v, h, he, .nil v⟩
  | append_singleton more e' ih =>
    rw [← List.cons_append, ← List.append_assoc] at h
    obtain ⟨w', h, he'⟩ := h.last
    obtain ⟨u, w, hevents, he, hmore⟩ := ih h
    exact ⟨u, w, hevents, he, .concat hmore he'⟩

/-- A step adds events that replay on its view. -/
def Adds (point : τ → ω → τ → Prop) (view : σ → τ) (history : σ → List ω) (s t : σ) : Prop :=
  ∃ new, history t = history s ++ new ∧ Replays point (view s) new (view t)

theorem Adds.none {view : σ → τ} {history : σ → List ω} {s t : σ} (hhistory : history t = history s)
    (hview : view t = view s) : Adds point view history s t := by
  refine ⟨[], ?_, ?_⟩
  · rw [hhistory, List.append_nil]
  · rw [hview]
    exact .nil _

theorem Adds.one {view : σ → τ} {history : σ → List ω} {s t : σ} {e : ω} (hhistory : history t = history s ++ [e])
    (he : point (view s) e (view t)) : Adds point view history s t := ⟨[e], hhistory, .single he⟩

theorem Replays.adds {view : σ → τ} {history : σ → List ω} {v : τ} {s t : σ}
    (h : Replays point v (history s) (view s)) (hadds : Adds point view history s t) :
    Replays point v (history t) (view t) := by
  obtain ⟨new, hhistory, hnew⟩ := hadds
  rw [hhistory]
  exact h.append hnew

/-- Where every step adds what replays, the history replays in every state of a run. -/
theorem replays_throughout {I : σ → Prop} {view : σ → τ} {history : σ → List ω} {v : τ}
    (hstep : ∀ s i t, I s → step s i = .ok t → I t ∧ Adds point view history s t) {s : σ} (hs : I s)
    (hv : Replays point v (history s) (view s)) (is : List ι) :
    Throughout step (fun s => Replays point v (history s) (view s)) s is := by
  have hall : Throughout step (fun s => I s ∧ Replays point v (history s) (view s)) s is :=
    throughout_of_all (fun s i t h ht => ⟨(hstep s i t h.1 ht).1, h.2.adds (hstep s i t h.1 ht).2⟩) ⟨hs, hv⟩ is
  exact hall.mono fun _ h => h.2

end Rinha.Library
