import Mathlib.Algebra.BigOperators.Group.List.Basic

/-! Postings to accounts, one after the other.

A history is the list of the postings made so far. Each names an account, an
amount, and the balance it was answered with. `Replied` says that every answer is
the balance its own posting left; `Replied.running` reads that off one account:
among the postings to it, the answer to the `n`-th is the sum of the amounts up
to and with its own. -/
namespace Rinha.Library

structure Posting (κ M : Type*) where
  account : κ
  amount : M
  reply : M

variable {κ M : Type*} [DecidableEq κ]

/-- The postings to one account. -/
def postingsTo (h : List (Posting κ M)) (k : κ) : List (Posting κ M) :=
  h.filter fun p => p.account = k

@[simp] theorem postingsTo_nil (k : κ) : postingsTo ([] : List (Posting κ M)) k = [] := rfl

theorem postingsTo_self (h : List (Posting κ M)) (p : Posting κ M) :
    postingsTo (h ++ [p]) p.account = postingsTo h p.account ++ [p] := by
  simp [postingsTo]

theorem postingsTo_other (h : List (Posting κ M)) (p : Posting κ M) {k : κ} (hk : p.account ≠ k) :
    postingsTo (h ++ [p]) k = postingsTo h k := by
  simp [postingsTo, hk]

variable [AddMonoid M]

def balance (h : List (Posting κ M)) (k : κ) : M := ((postingsTo h k).map Posting.amount).sum

@[simp] theorem balance_nil (k : κ) : balance ([] : List (Posting κ M)) k = 0 := rfl

theorem balance_self (h : List (Posting κ M)) (p : Posting κ M) :
    balance (h ++ [p]) p.account = balance h p.account + p.amount := by
  simp [balance, postingsTo_self]

theorem balance_other (h : List (Posting κ M)) (p : Posting κ M) {k : κ} (hk : p.account ≠ k) :
    balance (h ++ [p]) k = balance h k := by
  simp [balance, postingsTo_other h p hk]

/-- Every posting was answered with the balance it left. -/
inductive Replied : List (Posting κ M) → Prop where
  | nil : Replied []
  | post {h : List (Posting κ M)} {p : Posting κ M} : Replied h →
      p.reply = balance h p.account + p.amount → Replied (h ++ [p])

/-- On one account, the answers are the running sums of the amounts. -/
theorem Replied.running {h : List (Posting κ M)} (hr : Replied h) (k : κ) :
    ∀ n p, (postingsTo h k)[n]? = some p →
      p.reply = (((postingsTo h k).take (n + 1)).map Posting.amount).sum := by
  induction hr with
  | nil => intro n p hp; simp at hp
  | @post h q _ hq ih =>
    by_cases hk : q.account = k
    · subst hk
      rw [postingsTo_self]
      intro n p hp
      by_cases hn : n < (postingsTo h q.account).length
      · rw [List.getElem?_append_left hn] at hp
        rw [List.take_append_of_le_length hn]
        exact ih n p hp
      · have hlast : n = (postingsTo h q.account).length := by
          have := (List.getElem?_eq_some_iff.mp hp).1
          rw [List.length_append, List.length_singleton] at this
          omega
        rw [hlast, List.getElem?_concat_length] at hp
        cases hp
        rw [hq, List.take_of_length_le (by simp [hlast])]
        simp [balance]
    · rw [postingsTo_other h q hk]
      exact ih

end Rinha.Library
