import Mathlib.Data.List.Basic

/-! Runs of a machine whose step may refuse.

A step takes a state and an input to the next state, or says why there is none.
A property of every state of a run is reached two ways: from an invariant that
every step keeps as long as it meets a condition (`throughout_of_steps`), or,
where a step keeps the property exactly when it meets the condition, as an
equivalence between the two (`throughout_iff`). -/
namespace Rinha.Library

variable {σ ι ε : Type*} (step : σ → ι → Except ε σ)

/-- The state after the inputs, or the first refusal. -/
def run (s : σ) : List ι → Except ε σ
  | [] => .ok s
  | i :: rest =>
    match step s i with
    | .ok t => run t rest
    | .error e => .error e

/-- `Q` holds of every state the run goes through, the first and the last included. -/
def Throughout (Q : σ → Prop) : σ → List ι → Prop
  | s, [] => Q s
  | s, i :: rest => Q s ∧ ∀ t, step s i = .ok t → Throughout Q t rest

/-- Every step the run takes meets `C`. -/
def EachStep (C : σ → ι → Prop) : σ → List ι → Prop
  | _, [] => True
  | s, i :: rest => ∀ t, step s i = .ok t → C s i ∧ EachStep C t rest

/-- Every input the run comes to meets `C`, the one that is refused included. -/
def EachInput (C : σ → ι → Prop) : σ → List ι → Prop
  | _, [] => True
  | s, i :: rest => C s i ∧ ∀ t, step s i = .ok t → EachInput C t rest

instance {C : σ → ι → Prop} [∀ s i, Decidable (C s i)] :
    ∀ (s : σ) (is : List ι), Decidable (EachStep step C s is)
  | _, [] => .isTrue trivial
  | s, i :: rest =>
    match h : step s i with
    | .error _ => .isTrue fun _ ht => nomatch h.symm.trans ht
    | .ok t =>
      have : Decidable (EachStep step C t rest) := instDecidableEachStep t rest
      decidable_of_iff (C s i ∧ EachStep step C t rest)
        ⟨fun hstep _ ht => Except.ok.inj (h.symm.trans ht) ▸ hstep, fun hstep => hstep t h⟩

variable {step}

theorem run_ok (s : σ) (i : ι) (rest : List ι) (t : σ) (h : step s i = .ok t) :
    run step s (i :: rest) = run step t rest := by
  rw [run, h]

theorem Throughout.head {Q : σ → Prop} {s : σ} {is : List ι} (h : Throughout step Q s is) : Q s := by
  cases is with
  | nil => exact h
  | cons i rest => exact h.1

theorem Throughout.mono {Q R : σ → Prop} (hQR : ∀ s, Q s → R s) {s : σ} {is : List ι}
    (h : Throughout step Q s is) : Throughout step R s is := by
  induction is generalizing s with
  | nil => exact hQR s h
  | cons i rest ih => exact ⟨hQR s h.1, fun t ht => ih (h.2 t ht)⟩

/-- A result is known by what is computed of it. -/
theorem exists_of_map_ok {α β : Type*} {x : Except ε α} {f : α → β} {b : β} (h : x.map f = .ok b) :
    ∃ a, x = .ok a ∧ f a = b := by
  cases x with
  | error e => cases h
  | ok a =>
    cases h
    exact ⟨a, rfl, rfl⟩

/-- Holding throughout is holding after every initial part of the inputs that runs. -/
theorem throughout_iff_run {Q : σ → Prop} {s : σ} {is : List ι} :
    Throughout step Q s is ↔ ∀ n t, run step s (is.take n) = .ok t → Q t := by
  induction is generalizing s with
  | nil =>
    constructor
    · intro h n t ht
      rw [List.take_nil, run] at ht
      cases ht
      exact h
    · intro h
      exact h 0 s rfl
  | cons i rest ih =>
    constructor
    · intro h n t ht
      cases n with
      | zero =>
        cases ht
        exact h.1
      | succ n =>
        rw [List.take_succ_cons] at ht
        cases hs : step s i with
        | error e =>
          rw [run, hs] at ht
          cases ht
        | ok u =>
          rw [run_ok s i _ u hs] at ht
          exact ih.mp (h.2 u hs) n t ht
    · intro h
      refine ⟨h 0 s rfl, fun u hu => ih.mpr fun n t ht => h (n + 1) t ?_⟩
      rw [List.take_succ_cons, run_ok s i _ u hu]
      exact ht

theorem Throughout.last {Q : σ → Prop} {s t : σ} {is : List ι} (h : Throughout step Q s is)
    (ht : run step s is = .ok t) : Q t :=
  throughout_iff_run.mp h is.length t (by rw [List.take_length]; exact ht)

variable (step) in
/-- Where a run from a start that may fail comes to, by what is computed of it. -/
theorem exists_run_ok {β : Type*} (x : Except ε σ) (is : List ι) (f : σ → β) (b : β)
    (h : (x.bind fun s => run step s is).map f = .ok b) :
    ∃ s t, x = .ok s ∧ run step s is = .ok t ∧ f t = b := by
  cases x with
  | error e => cases h
  | ok s =>
    obtain ⟨t, ht, hf⟩ := exists_of_map_ok h
    exact ⟨s, t, rfl, ht, hf⟩

/-- An invariant kept by every step that meets `C` holds throughout a run whose
steps all meet `C`. -/
theorem throughout_of_steps {I : σ → Prop} {C : σ → ι → Prop}
    (hstep : ∀ s i t, I s → C s i → step s i = .ok t → I t) {s : σ} (hs : I s) {is : List ι}
    (hC : EachStep step C s is) : Throughout step I s is := by
  induction is generalizing s with
  | nil => exact hs
  | cons i rest ih =>
    exact ⟨hs, fun t ht => ih (hstep s i t hs (hC t ht).1 ht) (hC t ht).2⟩

/-- An invariant kept by every step holds throughout every run. -/
theorem throughout_of_all {I : σ → Prop} (hstep : ∀ s i t, I s → step s i = .ok t → I t) {s : σ}
    (hs : I s) (is : List ι) : Throughout step I s is := by
  induction is generalizing s with
  | nil => exact hs
  | cons i rest ih => exact ⟨hs, fun t ht => ih (hstep s i t hs ht)⟩

/-- Under an invariant kept by every step, what holds of every step from a state
of the invariant holds of every step of every run. -/
theorem eachStep_of_all {I : σ → Prop} {C : σ → ι → Prop}
    (hstep : ∀ s i t, I s → step s i = .ok t → I t ∧ C s i) {s : σ} (hs : I s) (is : List ι) :
    EachStep step C s is := by
  induction is generalizing s with
  | nil => trivial
  | cons i rest ih => exact fun t ht => ⟨(hstep s i t hs ht).2, ih (hstep s i t hs ht).1⟩

/-- Where, under an invariant, a step from a good state ends in a good state
exactly when it meets `C`, a run is good throughout exactly when all its steps
meet `C`. -/
theorem throughout_iff {I Q : σ → Prop} {C : σ → ι → Prop}
    (hI : ∀ s i t, I s → step s i = .ok t → I t)
    (hQ : ∀ s i t, I s → Q s → step s i = .ok t → (Q t ↔ C s i)) {s : σ} (hs : I s) (hq : Q s)
    {is : List ι} : Throughout step Q s is ↔ EachStep step C s is := by
  induction is generalizing s with
  | nil => exact ⟨fun _ => trivial, fun _ => hq⟩
  | cons i rest ih =>
    constructor
    · intro h t ht
      have hqt : Q t := (h.2 t ht).head
      exact ⟨(hQ s i t hs hq ht).mp hqt, (ih (hI s i t hs ht) hqt).mp (h.2 t ht)⟩
    · intro h
      refine ⟨hq, fun t ht => ?_⟩
      have hqt : Q t := (hQ s i t hs hq ht).mpr (h t ht).1
      exact (ih (hI s i t hs ht) hqt).mpr (h t ht).2

/-- Where, under an invariant, `C` and `D` say the same of every input, they say the
same of a run. -/
theorem eachInput_iff {I : σ → Prop} {C D : σ → ι → Prop}
    (hI : ∀ s i t, I s → step s i = .ok t → I t) (hCD : ∀ s i, I s → (C s i ↔ D s i)) {s : σ} (hs : I s)
    {is : List ι} : EachInput step C s is ↔ EachInput step D s is := by
  induction is generalizing s with
  | nil => exact Iff.rfl
  | cons i rest ih =>
    exact and_congr (hCD s i hs) (forall_congr' fun t => forall_congr' fun ht => ih (hI s i t hs ht))

/-- What an invariant says of every input holds of every input of a run. -/
theorem eachInput_of_all {I : σ → Prop} {C : σ → ι → Prop}
    (hI : ∀ s i t, I s → step s i = .ok t → I t) (hC : ∀ s i, I s → C s i) {s : σ} (hs : I s)
    (is : List ι) : EachInput step C s is := by
  induction is generalizing s with
  | nil => trivial
  | cons i rest ih => exact ⟨hC s i hs, fun t ht => ih (hI s i t hs ht)⟩

end Rinha.Library
