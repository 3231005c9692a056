import Mathlib.Algebra.Order.BigOperators.Group.Finset
import Mathlib.Algebra.BigOperators.Ring.List
import Mathlib.Algebra.Ring.Nat
import Mathlib.Data.List.Sort
import Rinha.Database.Sessions
import Rinha.Library.Potential

/-! The calls of `init.pgsql` come to their end.

A call waits in its UPDATE alone, and has no lock then; so the session it waits for
waits for nobody (`never_deadlocked`). A call takes three statements at most, and is
answered once (`calls_accounted`). So whatever was called can be finished by the
statements that the sessions have left (`calls_finish`): no call has to be cut off. -/
namespace Rinha.Database
open Library

variable {σ : Type*}

/-! ### What is counted -/

/-- The session whose next statement it is. -/
def Act.statementOf : Act σ → Option σ
  | update s => some s
  | insert s => some s
  | commit s => some s
  | select s _ => some s
  | _ => none

/-- The session that is called. -/
def Act.callOf : Act σ → Option σ
  | call s _ _ => some s
  | callExtrato s _ => some s
  | _ => none

theorem Act.callOf_statement {act : Act σ} {s : σ} (h : act.statementOf = some s) : act.callOf = none := by
  cases act <;> first | rfl | cases h

theorem Act.statementOf_call {act : Act σ} {s : σ} (h : act.callOf = some s) : act.statementOf = none := by
  cases act <;> first | rfl | cases h

def Entry.session : Entry σ → σ
  | pushed s _ _ _ => s
  | extrato s _ _ _ => s
  | noExtrato s _ => s

/-- How many statements a call has left. -/
def Phase.rank : Phase → Nat
  | idle => 0
  | called _ _ _ => 3
  | updated _ _ _ _ => 2
  | inserted _ _ _ _ => 1
  | reading _ _ => 1

theorem Phase.rank_eq_zero {p : Phase} : p.rank = 0 ↔ p = .idle := by
  cases p <;> simp [Phase.rank]

theorem Phase.rank_le (p : Phase) : p.rank ≤ 3 := by
  cases p <;> simp [Phase.rank]

/-- A call that has a lock has done its UPDATE. -/
theorem Phase.locked_some {p : Phase} {id : Integer} (h : p.locked = some id) :
    (∃ f a now row, p = .updated f a now row) ∨ ∃ f a row r, p = .inserted f a row r := by
  cases p with
  | updated f a now row => exact .inl ⟨f, a, now, row, rfl⟩
  | inserted f a row r => exact .inr ⟨f, a, row, r, rfl⟩
  | idle => cases h
  | called f a now => cases h
  | reading id now => cases h

section Sessions
variable [DecidableEq σ]

/-- How many calls of a session there are among these acts. -/
def calls (s : σ) (acts : List (Act σ)) : Nat := (acts.map fun act => if act.callOf = some s then 1 else 0).sum

/-- How many statements. -/
def statements (s : σ) (acts : List (Act σ)) : Nat :=
  (acts.map fun act => if act.statementOf = some s then 1 else 0).sum

/-- How many of its calls have returned. -/
def Db.answers (db : Db σ) (s : σ) : Nat := (db.history.filter fun e => e.session = s).length

/-! ### A step -/

/-- The session goes to this phase, and the others stay in theirs. -/
def Moves (db db' : Db σ) (s : σ) (p : Phase) : Prop := ∀ s', db'.phase s' = if s' = s then p else db.phase s'

/-- What a step does to the sessions and their locks. -/
inductive Turn (db db' : Db σ) : Act σ → Prop where
  | ticks (phase : db'.phase = db.phase) (locks : db'.locks = db.locks) (history : db'.history = db.history) :
      Turn db db' .tick
  | begins {act s p} (of : act.callOf = some s) (idle : db.phase s = .idle) (moves : Moves db db' s p)
      (busy : p ≠ .idle) (unlocked : p.locked = none) (locks : db'.locks = db.locks)
      (history : db'.history = db.history) : Turn db db' act
  /-- The session has the same locks as before. -/
  | continues {act s p} (of : act.statementOf = some s) (moves : Moves db db' s p) (busy : p ≠ .idle)
      (rank : p.rank < (db.phase s).rank) (locked : p.locked = (db.phase s).locked) (locks : db'.locks = db.locks)
      (history : db'.history = db.history) : Turn db db' act
  /-- It takes the lock of a row that nobody has locked. -/
  | takes {act s p id} (of : act.statementOf = some s) (moves : Moves db db' s p) (busy : p ≠ .idle)
      (rank : p.rank < (db.phase s).rank) (unlocked : (db.phase s).locked = none) (locked : p.locked = some id)
      (free : db.locks id = none) (locks : ∀ id', db'.locks id' = if id' = id then some s else db.locks id')
      (history : db'.history = db.history) : Turn db db' act
  /-- Its call returns, and its lock goes. -/
  | ends {act s e} (of : act.statementOf = some s ∨ act = .cancel s) (busy : db.phase s ≠ .idle)
      (moves : Moves db db' s .idle)
      (locks : ∀ id, db'.locks id = if (db.phase s).locked = some id then none else db.locks id)
      (session : e.session = s) (history : db'.history = db.history ++ [e]) : Turn db db' act

theorem moves_setPhase (db : Db σ) (s : σ) (p : Phase) : Moves db (db.setPhase s p) s p := fun _ => rfl

/-- The end of a call, with whatever it commits. -/
theorem turn_finish {db u : Db σ} {act : Act σ} {s : σ} {e : Entry σ} {t : Tables}
    (of : act.statementOf = some s ∨ act = .cancel s) (busy : db.phase s ≠ .idle) (session : e.session = s)
    (phase : u.phase = db.phase) (locks : u.locks = db.locks) (history : u.history = db.history) :
    Turn db {u.finish s e with tables := t} act := by
  refine .ends of busy (fun s' => ?_) (fun id => ?_) session ?_
  · show (u.finish s e).phase s' = _
    rw [← phase]
    unfold Db.finish
    cases (u.phase s).locked <;> rfl
  · show (u.finish s e).locks id = _
    rw [← phase, ← locks]
    unfold Db.finish
    cases hlocked : (u.phase s).locked with
    | none => exact (if_neg fun h => by cases h).symm
    | some id' =>
      show (if id = id' then none else u.locks id) = _
      by_cases heq : id = id'
      · rw [if_pos heq, if_pos (by rw [heq])]
      · rw [if_neg heq, if_neg fun h => heq (Option.some.inj h).symm]
  · rw [← history]
    rfl

theorem begin_turn {db db' : Db σ} {act : Act σ} {s : σ} {p : Phase} (of : act.callOf = some s) (hp : p.locked = none)
    (hbusy : p ≠ .idle) (hs : db.begin s p = .ok db') : Turn db db' act := by
  unfold Db.begin at hs
  split at hs
  · rename_i hidle
    cases hs
    exact .begins of hidle (moves_setPhase db s p) hbusy hp rfl rfl
  · cases hs

theorem update_turn {db db' : Db σ} {s : σ} (hs : db.update s = .ok db') : Turn db db' (.update s) := by
  unfold Db.update at hs
  split at hs
  · rename_i f a now hphase
    have hbusy : db.phase s ≠ .idle := by
      rw [hphase]
      exact fun h => by cases h
    split at hs
    · cases hs
    · rename_i hfree
      split at hs
      · cases hs
        exact turn_finish (.inl rfl) hbusy rfl rfl rfl rfl
      · cases hs
        exact turn_finish (.inl rfl) hbusy rfl rfl rfl rfl
      · cases hs
        refine .takes rfl (fun _ => rfl) (fun h => by cases h) ?_ ?_ rfl hfree (fun _ => rfl) rfl
        · rw [hphase]
          exact Nat.lt_succ_self _
        · rw [hphase]
          rfl
  · cases hs

theorem insert_turn {db db' : Db σ} {s : σ} (hs : db.insert s = .ok db') : Turn db db' (.insert s) := by
  unfold Db.insert at hs
  split at hs
  · rename_i f a now row hphase
    have hbusy : db.phase s ≠ .idle := by
      rw [hphase]
      exact fun h => by cases h
    split at hs
    · cases hs
      exact turn_finish (.inl rfl) hbusy rfl rfl rfl rfl
    · cases hs
      refine .continues rfl (moves_setPhase _ s _) (fun h => by cases h) ?_ ?_ rfl rfl
      · rw [hphase]
        exact Nat.lt_succ_self _
      · rw [hphase]
        rfl
  · cases hs

theorem commit_turn {db db' : Db σ} {s : σ} (hs : db.commit s = .ok db') : Turn db db' (.commit s) := by
  unfold Db.commit at hs
  split at hs
  · rename_i hphase
    cases hs
    refine turn_finish (.inl rfl) ?_ rfl rfl rfl rfl
    rw [hphase]
    exact fun h => by cases h
  · cases hs

theorem select_turn {db db' : Db σ} {s : σ} {rows : List Transacao} (hs : db.select s rows = .ok db') :
    Turn db db' (.select s rows) := by
  unfold Db.select at hs
  split at hs
  · rename_i hphase
    split at hs
    · cases hs
      refine turn_finish (.inl rfl) ?_ rfl rfl rfl rfl
      rw [hphase]
      exact fun h => by cases h
    · cases hs
  · cases hs

theorem cancel_turn {db db' : Db σ} {s : σ} (hs : db.cancel s = .ok db') : Turn db db' (.cancel s) := by
  have hbusy : db.phase s ≠ .idle := by
    intro hidle
    rw [Db.cancel, hidle] at hs
    cases hs
  unfold Db.cancel at hs
  split at hs
  · cases hs
  all_goals
    cases hs
    exact turn_finish (.inr rfl) hbusy rfl rfl rfl rfl

theorem step_turn {db db' : Db σ} {act : Act σ} (hs : db.step act = .ok db') : Turn db db' act := by
  cases act with
  | tick =>
    cases hs
    exact .ticks rfl rfl rfl
  | call s f a => exact begin_turn rfl rfl (fun h => by cases h) hs
  | callExtrato s id => exact begin_turn rfl rfl (fun h => by cases h) hs
  | update s => exact update_turn hs
  | insert s => exact insert_turn hs
  | commit s => exact commit_turn hs
  | select s rows => exact select_turn hs
  | cancel s => exact cancel_turn hs

/-! ### Nobody waits for a session that waits -/

/-- A row is locked by a session exactly when this has it written. -/
def Held (db : Db σ) : Prop := ∀ id s, db.locks id = some s ↔ (db.phase s).locked = some id

omit [DecidableEq σ] in
theorem held_seeded : Held (Db.seeded : Db σ) := fun _ _ => iff_of_false (fun h => by cases h) fun h => by cases h

theorem held_step {db db' : Db σ} {act : Act σ} (h : Held db) (hs : db.step act = .ok db') : Held db' := by
  -- A session that keeps its locks keeps what is held.
  have hkept : ∀ s p, Moves db db' s p → p.locked = (db.phase s).locked → db'.locks = db.locks → Held db' := by
    intro s p hmoves hlocked hlocks id s'
    rw [hlocks, hmoves s', h id s']
    split
    · rename_i heq
      rw [heq, hlocked]
    · rfl
  cases step_turn hs with
  | ticks phase locks =>
    intro id s
    rw [phase, locks]
    exact h id s
  | @begins _ s p _ idle moves _ unlocked locks =>
    refine hkept s p moves ?_ locks
    rw [unlocked, idle]
    rfl
  | @continues _ s p _ moves _ _ locked locks => exact hkept s p moves locked locks
  | @takes _ s p id _ moves _ _ unlocked locked free locks =>
    intro id' s'
    rw [locks, moves s']
    by_cases hid : id' = id
    · subst hid
      rw [if_pos rfl]
      constructor
      · intro hs'
        rw [if_pos (Option.some.inj hs').symm]
        exact locked
      · intro hlocked
        split at hlocked
        · rename_i heq
          rw [heq]
        · have hnone := (h id' s').mpr hlocked
          rw [free] at hnone
          cases hnone
    · rw [if_neg hid]
      split
      · rename_i heq
        rw [heq, h id' s, unlocked, locked]
        exact iff_of_false (fun hn => by cases hn) fun hsome => hid (Option.some.inj hsome).symm
      · exact h id' s'
  | @ends _ s e _ _ moves locks =>
    intro id s'
    rw [locks, moves s']
    by_cases hlocked : (db.phase s).locked = some id
    · rw [if_pos hlocked]
      refine iff_of_false (fun hn => by cases hn) fun hsome => ?_
      split at hsome
      · cases hsome
      · rename_i hne
        -- The lock of the row has one holder.
        have hs := (h id s).mpr hlocked
        rw [(h id s').mpr hsome] at hs
        exact hne (Option.some.inj hs)
    · rw [if_neg hlocked, h id s']
      split
      · rename_i heq
        rw [heq]
        exact iff_of_false hlocked fun hn => by cases hn
      · rfl

/-- One of its statements can be run now. -/
def Ready (db : Db σ) (s : σ) : Prop := ∃ act, act.statementOf = some s ∧ ∃ db', db.step act = .ok db'

/-- Its UPDATE waits for a row that the other has locked. -/
def WaitsFor (db : Db σ) (s s' : σ) : Prop :=
  ∃ f a now, db.phase s = .called f a now ∧ db.locks a.cliente_id_in = some s'

/-- Every call can go on, or waits for one that can. -/
def DeadlockFree (db : Db σ) : Prop :=
  ∀ s, db.phase s ≠ .idle → Ready db s ∨ ∃ s', s' ≠ s ∧ WaitsFor db s s' ∧ Ready db s'

theorem exists_ordered (t : Tables) (id : Integer) : ∃ rows, t.Ordered id rows := by
  refine ⟨(t.transacoesDe id).mergeSort fun r r' => decide (r'.realizada_em ≤ r.realizada_em),
    List.mergeSort_perm _ _, ?_⟩
  have hsorted := @List.pairwise_mergeSort Transacao (fun r r' => decide (r'.realizada_em ≤ r.realizada_em))
    (fun a b c hab hbc => by simp only [decide_eq_true_eq] at hab hbc ⊢; omega)
    (fun a b => by simp only [Bool.or_eq_true, decide_eq_true_eq]; omega) (t.transacoesDe id)
  exact hsorted.imp fun h => of_decide_eq_true h

/-- A call that has a lock does not wait. -/
theorem ready_of_locked {db : Db σ} {s : σ} {id : Integer} (h : (db.phase s).locked = some id) : Ready db s := by
  rcases Phase.locked_some h with ⟨f, a, now, row, hphase⟩ | ⟨f, a, row, r, hphase⟩
  · cases hinsert : db.tables.insertTransacao db.seq now a.cliente_id_in a.valor_in f.tipo a.descricao_in with
    | error e =>
      refine ⟨.insert s, rfl, ?_⟩
      simp only [Db.step, Db.insert, hphase, hinsert]
      exact ⟨_, rfl⟩
    | ok r =>
      refine ⟨.insert s, rfl, ?_⟩
      simp only [Db.step, Db.insert, hphase, hinsert]
      exact ⟨_, rfl⟩
  · refine ⟨.commit s, rfl, ?_⟩
    simp only [Db.step, Db.commit, hphase]
    exact ⟨_, rfl⟩

/-- A call whose row is not locked by another does not wait either. -/
theorem ready_of_free {db : Db σ} {s : σ} (hbusy : db.phase s ≠ .idle)
    (hfree : ∀ f a now, db.phase s = .called f a now → db.locks a.cliente_id_in = none) : Ready db s := by
  cases hphase : db.phase s with
  | idle => exact absurd hphase hbusy
  | called f a now =>
    have hlocks := hfree f a now hphase
    cases hupdate : db.tables.updateSaldo (f.expr a.valor_in) a.cliente_id_in with
    | error e =>
      refine ⟨.update s, rfl, ?_⟩
      simp only [Db.step, Db.update, hphase, hlocks, hupdate]
      exact ⟨_, rfl⟩
    | ok found =>
      cases found with
      | none =>
        refine ⟨.update s, rfl, ?_⟩
        simp only [Db.step, Db.update, hphase, hlocks, hupdate]
        exact ⟨_, rfl⟩
      | some row =>
        refine ⟨.update s, rfl, ?_⟩
        simp only [Db.step, Db.update, hphase, hlocks, hupdate]
        exact ⟨_, rfl⟩
  | updated f a now row =>
    have hlocked : (db.phase s).locked = some a.cliente_id_in := by rw [hphase]; rfl
    exact ready_of_locked hlocked
  | inserted f a row r =>
    have hlocked : (db.phase s).locked = some a.cliente_id_in := by rw [hphase]; rfl
    exact ready_of_locked hlocked
  | reading id now =>
    obtain ⟨rows, hrows⟩ := exists_ordered db.tables id
    refine ⟨.select s rows, rfl, ?_⟩
    simp only [Db.step, Db.select, hphase, if_pos hrows]
    exact ⟨_, rfl⟩

theorem Held.deadlockFree {db : Db σ} (h : Held db) : DeadlockFree db := by
  intro s hbusy
  by_cases hwaits : ∃ s', WaitsFor db s s'
  · obtain ⟨s', f, a, now, hphase, hlocks⟩ := hwaits
    have hlocked := (h a.cliente_id_in s').mp hlocks
    refine .inr ⟨s', ?_, ⟨f, a, now, hphase, hlocks⟩, ready_of_locked hlocked⟩
    rintro rfl
    rw [hphase] at hlocked
    cases hlocked
  · refine .inl (ready_of_free hbusy fun f a now hphase => ?_)
    exact Option.eq_none_iff_forall_ne_some.mpr fun s' hlocks => hwaits ⟨s', f, a, now, hphase, hlocks⟩

/-- **In no state that calls lead to is there a deadlock**: a call that cannot go on
waits for one that can, whatever was interleaved. -/
theorem never_deadlocked (acts : List (Act σ)) : Throughout Db.step DeadlockFree (Db.seeded : Db σ) acts :=
  (throughout_of_all (fun _ _ _ => held_step) held_seeded acts).mono fun _ h => h.deadlockFree

/-! ### Every call is answered once, by three statements at most -/

/-- A step takes from a session's statements no more than it has left. -/
theorem rank_step {db db' : Db σ} {act : Act σ} (hs : db.step act = .ok db') (s : σ) :
    (db'.phase s).rank + (if act.statementOf = some s then 1 else 0) ≤
      (db.phase s).rank + 3 * if act.callOf = some s then 1 else 0 := by
  -- A statement of one session, which brings it to a phase of lower rank.
  have hstatement : ∀ s₀ p, act.statementOf = some s₀ → Moves db db' s₀ p → p.rank < (db.phase s₀).rank →
      (db'.phase s).rank + (if act.statementOf = some s then 1 else 0) ≤ (db.phase s).rank := by
    intro s₀ p hact hmoves hlt
    rw [hmoves s, hact]
    by_cases heq : s = s₀
    · subst heq
      rw [if_pos rfl, if_pos rfl]
      exact hlt
    · rw [if_neg heq, if_neg fun h => heq (Option.some.inj h).symm]
      exact le_rfl
  cases step_turn hs with
  | ticks phase =>
    rw [phase]
    exact le_rfl
  | @begins _ s₀ p of idle moves =>
    rw [moves s, Act.statementOf_call of, of]
    by_cases heq : s = s₀
    · have hrank := p.rank_le
      subst heq
      rw [if_pos rfl, if_pos rfl]
      simp only [reduceCtorEq, if_false]
      omega
    · rw [if_neg heq, if_neg fun h => heq (Option.some.inj h).symm]
      simp
  | @continues _ s₀ p of moves _ rank => exact (hstatement s₀ p of moves rank).trans (Nat.le_add_right _ _)
  | @takes _ s₀ p _ of moves _ rank => exact (hstatement s₀ p of moves rank).trans (Nat.le_add_right _ _)
  | @ends _ s₀ e of busy moves =>
    rcases of with of | rfl
    · refine (hstatement s₀ .idle of moves ?_).trans (Nat.le_add_right _ _)
      exact Nat.pos_of_ne_zero fun h => busy (Phase.rank_eq_zero.mp h)
    · rw [moves s]
      split
      · simp [Phase.rank, Act.statementOf]
      · simp [Act.statementOf]

/-- A call is answered when its session is idle again. -/
theorem answers_step {db db' : Db σ} {act : Act σ} (hs : db.step act = .ok db') (s : σ) :
    db'.answers s + (if db'.phase s = .idle then 0 else 1) =
      db.answers s + (if db.phase s = .idle then 0 else 1) + if act.callOf = some s then 1 else 0 := by
  have hstays : ∀ s₀ p, act.callOf = none → Moves db db' s₀ p → p ≠ .idle → db.phase s₀ ≠ .idle →
      db'.history = db.history → db'.answers s + (if db'.phase s = .idle then 0 else 1) =
        db.answers s + (if db.phase s = .idle then 0 else 1) + if act.callOf = some s then 1 else 0 := by
    intro s₀ p hcall hmoves hp hbusy hhistory
    rw [hmoves s, hcall, Db.answers, hhistory]
    by_cases heq : s = s₀
    · subst heq
      rw [if_pos rfl, if_neg hp, if_neg hbusy]
      rfl
    · rw [if_neg heq]
      rfl
  have hbusy : ∀ s₀ (p : Phase), p.rank < (db.phase s₀).rank → db.phase s₀ ≠ .idle := by
    intro s₀ p hlt hidle
    rw [hidle] at hlt
    exact Nat.not_lt_zero _ hlt
  cases step_turn hs with
  | ticks phase _ history =>
    rw [phase, Db.answers, history]
    rfl
  | @begins _ s₀ p of idle moves busy _ _ history =>
    rw [moves s, of, Db.answers, history]
    by_cases heq : s = s₀
    · subst heq
      rw [if_pos rfl, if_neg busy, if_pos idle, if_pos rfl]
      rfl
    · rw [if_neg heq, if_neg fun h => heq (Option.some.inj h).symm]
      rfl
  | @continues _ s₀ p of moves busy rank _ _ history =>
    exact hstays s₀ p (Act.callOf_statement of) moves busy (hbusy s₀ p rank) history
  | @takes _ s₀ p _ of moves busy rank _ _ _ _ history =>
    exact hstays s₀ p (Act.callOf_statement of) moves busy (hbusy s₀ p rank) history
  | @ends _ s₀ e of busy moves _ session history =>
    have hcall : act.callOf = none := by
      rcases of with of | rfl
      · exact Act.callOf_statement of
      · rfl
    rw [moves s, hcall, Db.answers, history, List.filter_append, List.length_append, List.filter_singleton, session]
    by_cases heq : s = s₀
    · subst heq
      simp [Db.answers, busy]
    · simp [Db.answers, heq, Ne.symm heq]

theorem answers_run {acts : List (Act σ)} {db db' : Db σ} (h : run Db.step db acts = .ok db') (s : σ) :
    db'.answers s + (if db'.phase s = .idle then 0 else 1) =
      db.answers s + (if db.phase s = .idle then 0 else 1) + calls s acts := by
  have hpays := run_pays (fun db : Db σ => db.answers s + if db.phase s = .idle then 0 else 1) (fun _ => 0)
    (fun act => if act.callOf = some s then 1 else 0) (I := fun _ => True) (fun _ _ _ _ _ => trivial)
    (fun _ _ _ _ hs => answers_step hs s) trivial h
  rw [List.map_const', List.sum_replicate, nsmul_zero, add_zero] at hpays
  exact hpays

theorem rank_run {acts : List (Act σ)} {db db' : Db σ} (h : run Db.step db acts = .ok db') (s : σ) :
    (db'.phase s).rank + statements s acts ≤ (db.phase s).rank + 3 * calls s acts := by
  have hprice := run_price (fun db : Db σ => (db.phase s).rank)
    (fun act => if act.statementOf = some s then 1 else 0) (fun act => 3 * if act.callOf = some s then 1 else 0)
    (I := fun _ => True) (fun _ _ _ _ _ => trivial) (fun _ _ _ _ hs => rank_step hs s) trivial h
  have hgain : (acts.map fun act => 3 * if act.callOf = some s then 1 else 0).sum = 3 * calls s acts :=
    List.sum_map_mul_left ..
  rw [hgain] at hprice
  exact hprice

/-- **Every call is answered once**, when its session is idle again; and takes three
statements at most. -/
theorem calls_accounted {acts : List (Act σ)} {db : Db σ} (h : run Db.step Db.seeded acts = .ok db) (s : σ) :
    db.answers s + (if db.phase s = .idle then 0 else 1) = calls s acts ∧
      (db.phase s).rank + statements s acts ≤ 3 * calls s acts :=
  ⟨(answers_run h s).trans (Nat.zero_add _), (rank_run h s).trans_eq (Nat.zero_add _)⟩

/-! ### Calls can be finished -/

/-- What the sessions that were called have left falls. -/
theorem left_step {db db' : Db σ} {act : Act σ} {s : σ} {called : Finset σ} (hact : act.statementOf = some s)
    (hs : db.step act = .ok db') (hcalled : s ∈ called) :
    ∑ s' ∈ called, (db'.phase s').rank < ∑ s' ∈ called, (db.phase s').rank := by
  have hrank : ∀ s', (db'.phase s').rank + (if s = s' then 1 else 0) ≤ (db.phase s').rank := by
    intro s'
    have := rank_step hs s'
    simpa [hact, Act.callOf_statement hact] using this
  refine Finset.sum_lt_sum (fun s' _ => (Nat.le_add_right _ _).trans (hrank s')) ⟨s, hcalled, ?_⟩
  have := hrank s
  rw [if_pos rfl] at this
  exact this

/-- **Whatever was called can be finished**: from every state that calls lead to, the
sessions come to rest by statements alone, three for each call at most; no call is
cut off, and each has been answered once. -/
theorem calls_finish {acts : List (Act σ)} {db : Db σ} (h : run Db.step Db.seeded acts = .ok db) :
    ∃ rest db', (∀ act ∈ rest, ∃ s, act.statementOf = some s) ∧ run Db.step db rest = .ok db' ∧
      rest.length ≤ 3 * (acts.filterMap Act.callOf).length ∧
      ∀ s, db'.phase s = .idle ∧ db'.answers s = calls s acts := by
  let called := (acts.filterMap Act.callOf).toFinset
  have hheld : Held db := (throughout_of_all (fun _ _ _ => held_step) held_seeded acts).last h
  -- A session that was not called is idle.
  have hidle : ∀ s, s ∉ called → db.phase s = .idle := by
    intro s hs
    have hcalls : calls s acts = 0 := by
      refine List.sum_eq_zero fun n hn => ?_
      obtain ⟨act, hact, rfl⟩ := List.mem_map.mp hn
      exact if_neg fun hcall => hs (List.mem_toFinset.mpr (List.mem_filterMap.mpr ⟨act, hact, hcall⟩))
    have hrank := rank_run h s
    rw [hcalls] at hrank
    exact Phase.rank_eq_zero.mp (Nat.le_zero.mp ((Nat.le_add_right _ _).trans hrank))
  have hprogress : ∀ db : Db σ, Held db ∧ (∀ s, s ∉ called → db.phase s = .idle) → ¬ (∀ s, db.phase s = .idle) →
      ∃ act db', (∃ s, act.statementOf = some s) ∧ db.step act = .ok db' ∧
        (Held db' ∧ ∀ s, s ∉ called → db'.phase s = .idle) ∧
          ∑ s ∈ called, (db'.phase s).rank < ∑ s ∈ called, (db.phase s).rank := by
    intro db hdb hbusy
    obtain ⟨s, hs⟩ := not_forall.mp hbusy
    obtain ⟨s', act, hact, db', hstep⟩ : ∃ s', Ready db s' := by
      rcases hdb.1.deadlockFree s hs with hready | ⟨s', _, _, hready⟩
      · exact ⟨s, hready⟩
      · exact ⟨s', hready⟩
    have hmem : s' ∈ called := by
      by_contra hnot
      have hrank := rank_step hstep s'
      rw [hdb.2 s' hnot, hact, Act.callOf_statement hact, if_pos rfl] at hrank
      simp [Phase.rank] at hrank
    refine ⟨act, db', ⟨s', hact⟩, hstep, ⟨held_step hdb.1 hstep, fun t ht => ?_⟩, left_step hact hstep hmem⟩
    have hrank := rank_step hstep t
    rw [hdb.2 t ht, hact, Act.callOf_statement hact] at hrank
    simp only [reduceCtorEq, if_false] at hrank
    exact Phase.rank_eq_zero.mp (Nat.le_zero.mp ((Nat.le_add_right _ _).trans hrank))
  obtain ⟨rest, db', hrest, hlen, hrun, _, hdone⟩ := exists_run_to hprogress ⟨hheld, hidle⟩
  refine ⟨rest, db', hrest, hrun, ?_, fun s => ⟨hdone s, ?_⟩⟩
  · have hsum : ∑ s ∈ called, (db.phase s).rank ≤ called.card * 3 :=
      Finset.sum_le_card_nsmul called _ 3 fun s _ => (db.phase s).rank_le
    have hcard : called.card ≤ (acts.filterMap Act.callOf).length := List.toFinset_card_le _
    omega
  · have hnone : calls s rest = 0 := by
      refine List.sum_eq_zero fun n hn => ?_
      obtain ⟨act, hact, rfl⟩ := List.mem_map.mp hn
      obtain ⟨s', hs'⟩ := hrest act hact
      rw [Act.callOf_statement hs']
      exact if_neg fun h => by cases h
    have hanswers := answers_run hrun s
    rw [if_pos (hdone s), answers_run h s, hnone] at hanswers
    exact hanswers.trans (Nat.zero_add _)

/-! ### Two calls on one client -/

/-- A debit has the client's row locked, and the UPDATE of a credit waits for it. -/
def twoCalls : List (Act Bool) :=
  [.call false .pushDebito ⟨.ofFin 1, .ofFin 100, some ⟨['a'], by decide⟩⟩,
    .call true .pushCredito ⟨.ofFin 1, .ofFin 100, some ⟨['b'], by decide⟩⟩, .update false]

theorem twoCalls_run : ∃ db, run Db.step Db.seeded twoCalls = .ok db ∧ WaitsFor db true false ∧ ¬ Ready db true := by
  refine ⟨_, rfl, ⟨.pushCredito, _, _, rfl, rfl⟩, fun h => ?_⟩
  obtain ⟨act, hact, db', hs⟩ := h
  cases act <;> cases hact <;> cases hs

/-- They have been called once each, and neither has been answered. -/
theorem twoCalls_accounted :
    ∃ db, run Db.step Db.seeded twoCalls = .ok db ∧
      (db.answers true + (if db.phase true = .idle then 0 else 1) = calls true twoCalls ∧
        (db.phase true).rank + statements true twoCalls ≤ 3 * calls true twoCalls) := by
  obtain ⟨db, hdb, _⟩ := twoCalls_run
  exact ⟨db, hdb, calls_accounted hdb true⟩

theorem twoCalls_finish :
    ∃ db, run Db.step Db.seeded twoCalls = .ok db ∧
      ∃ rest db', (∀ act ∈ rest, ∃ s, act.statementOf = some s) ∧ run Db.step db rest = .ok db' ∧
        rest.length ≤ 3 * (twoCalls.filterMap Act.callOf).length ∧
        ∀ s, db'.phase s = .idle ∧ db'.answers s = calls s twoCalls := by
  obtain ⟨db, hdb, _⟩ := twoCalls_run
  exact ⟨db, hdb, calls_finish hdb⟩

end Sessions
end Rinha.Database
