import Mathlib.Data.List.Basic

/-! Parsers whose text comes bit by bit.

A parser makes something of a text or gives an error; one of its errors, `wait`, asks
for more. It is incremental when whatever else it says stands, whatever text comes
behind (`Incremental`). So is one that scans its text (`scan`) and one that reads on
where another has stopped (`bind`), and no beginning of a text that is accepted is
refused (`cut`). -/
namespace Rinha.Library

universe u v

variable {ε : Type*} {δ ζ : Type u} {δ' ζ' : Type v} {wait : ε}

/-- The second says what the first says, unless that asks for more; the values are
related. -/
inductive Follows (wait : ε) (R : δ → δ' → Prop) : Except ε δ → Except ε δ' → Prop where
  | waits (y : Except ε δ') : Follows wait R (.error wait) y
  | fails (e : ε) : Follows wait R (.error e) (.error e)
  | gives {d : δ} {d' : δ'} (h : R d d') : Follows wait R (.ok d) (.ok d')

namespace Follows
variable {R : δ → δ' → Prop} {S : ζ → ζ' → Prop} {x : Except ε δ} {y : Except ε δ'}

theorem bind {g : δ → Except ε ζ} {g' : δ' → Except ε ζ'} (h : Follows wait R x y)
    (hg : ∀ d d', R d d' → Follows wait S (g d) (g' d')) : Follows wait S (x >>= g) (y >>= g') := by
  cases h with
  | waits y => exact .waits _
  | fails e => exact .fails e
  | gives h => exact hg _ _ h

theorem map {k : δ → ζ} {k' : δ' → ζ'} (h : Follows wait R x y) (hk : ∀ d d', R d d' → S (k d) (k' d')) :
    Follows wait S (x.map k) (y.map k') := by
  cases h with
  | waits y => exact .waits _
  | fails e => exact .fails e
  | gives h => exact .gives (hk _ _ h)

theorem ok {d : δ} (h : Follows wait R (.ok d) y) : ∃ d', y = .ok d' ∧ R d d' := by
  cases h with
  | gives h => exact ⟨_, rfl, h⟩

theorem error {e : ε} (h : Follows wait R (.error e) y) (hne : e ≠ wait) : y = .error e := by
  cases h with
  | waits => exact absurd rfl hne
  | fails => rfl

theorem ok_right {d' : δ'} (h : Follows wait R x (.ok d')) : x = .error wait ∨ ∃ d, x = .ok d ∧ R d d' := by
  cases h with
  | waits => exact .inl rfl
  | gives h => exact .inr ⟨_, rfl, h⟩

end Follows

variable {τ β γ : Type*}

/-- What is said of the text is said of it with more behind it; `more` and `more'` put
the text that comes behind what is read and behind what is made of it. -/
def Incremental (wait : ε) (more : γ → τ → γ) (more' : δ → τ → δ) (f : γ → Except ε δ) : Prop :=
  ∀ c t, Follows wait (fun d d' => d' = more' d t) (f c) (f (more c t))

namespace Incremental
variable {more : γ → τ → γ} {more' : δ → τ → δ} {more'' : ζ → τ → ζ} {f : γ → Except ε δ}

theorem fail (e : ε) : Incremental wait more more' fun _ => .error e := fun _ _ => .fails e

theorem pure {d : γ → δ} (hd : ∀ c t, d (more c t) = more' (d c) t) :
    Incremental wait more more' fun c => .ok (d c) := fun c t => .gives (hd c t)

/-- A parser that reads on where an incremental one has stopped. -/
theorem bind {g : δ → Except ε ζ} (hf : Incremental wait more more' f) (hg : Incremental wait more' more'' g) :
    Incremental wait more more'' fun c => f c >>= g := by
  intro c t
  apply (hf c t).bind
  rintro d _ rfl
  exact hg d t

/-- Of the beginning of a text that is accepted the same is said as of the whole, or the
rest is asked for. -/
theorem cut (h : Incremental wait more more' f) {c : γ} {t : τ} {d : δ} (hok : f (more c t) = .ok d) :
    f c = .error wait ∨ ∃ d', f c = .ok d' ∧ d = more' d' t := by
  have hfollows := h c t
  rw [hok] at hfollows
  exact hfollows.ok_right

section Lists
variable {more' : δ → List β → δ} {f : List β → Except ε δ}

theorem behind (hf : Incremental wait (· ++ ·) more' f) (b : β) :
    Incremental wait (· ++ ·) more' fun text => f (b :: text) := fun text t => hf (b :: text) t

/-- A parser that looks at what its text begins with, and comes to an end there or does
the same with what is behind it. -/
theorem scan (hnil : f [] = .error wait)
    (hcons : ∀ b, (Incremental wait (· ++ ·) more' fun text => f (b :: text)) ∨
      ∃ k : δ → δ, (∀ d t, k (more' d t) = more' (k d) t) ∧ ∀ text, f (b :: text) = (f text).map k) :
    Incremental wait (· ++ ·) more' f := by
  intro text t
  induction text with
  | nil =>
    rw [hnil]
    exact .waits _
  | cons b text ih =>
    rcases hcons b with hends | ⟨k, hk, hrec⟩
    · exact hends text t
    · show Follows _ _ (f (b :: text)) (f (b :: (text ++ t)))
      rw [hrec, hrec]
      apply ih.map
      rintro d _ rfl
      exact hk d t

end Lists
end Incremental
end Rinha.Library
