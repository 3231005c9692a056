import Rinha.Database.Commands
import Rinha.Database.Progress

/-! A call from its beginning to its return.

A session runs the call it was given, and what it returns is the entry of that call
(`step_follows`). -/
namespace Rinha.Database
open Library Client

variable {σ : Type*}

/-- The call that a session has in progress. -/
def Phase.sqlCall : Phase → Option SqlCall
  | idle => none
  | called f a _ => some (.push f a)
  | updated f a _ _ => some (.push f a)
  | inserted f a _ _ => some (.push f a)
  | reading id _ => some (.extrato id)

/-- The call that has returned. -/
def Entry.sqlCall : Entry σ → SqlCall
  | pushed _ f a _ => .push f a
  | extrato _ id _ _ => .extrato id
  | noExtrato _ id => .extrato id

/-- The call that a session is given. -/
def Act.sqlCall : Act σ → Option SqlCall
  | call _ f a => some (.push f a)
  | callExtrato _ id => some (.extrato id)
  | _ => none

/-- What the client of the session is sent: the text of an extrato is PostgreSQL's to
choose. -/
def Entry.result (extratoJson : Extrato → List UInt8) : Entry σ → PGresult
  | pushed _ _ _ reply => reply.result
  | extrato _ _ _ reply => oneValue (some (extratoJson reply))
  | noExtrato _ _ => raised

/-- The call was neither refused nor did it fail: a push is committed. -/
def Entry.Done : Entry σ → Prop
  | pushed _ _ _ reply => ∃ limite saldo, reply = .json limite saldo
  | extrato _ _ _ _ => True
  | noExtrato _ _ => False

theorem Entry.done_of_result {extratoJson : Extrato → List UInt8} {e : Entry σ}
    (hok : (e.result extratoJson).tuplesOk = true) (hvalue : (e.result extratoJson).value.isSome) : e.Done := by
  cases e with
  | pushed s f a reply =>
    cases reply with
    | json limite saldo => exact ⟨limite, saldo, rfl⟩
    | null => cases hvalue
    | raised err => cases hok
  | extrato s id snapshot reply => trivial
  | noExtrato s id => cases hok

/-- What a step does to the calls in progress. -/
inductive Follows (db db' : Db σ) (act : Act σ) : Prop where
  /-- Every session has the call that it had. -/
  | goesOn (of : act.callOf = none) (calls : ∀ s, (db'.phase s).sqlCall = (db.phase s).sqlCall)
      (history : db'.history = db.history)
  /-- An idle session is given a call. -/
  | begins (s : σ) (of : act.callOf = some s) (idle : db.phase s = .idle)
      (begun : (db'.phase s).sqlCall = act.sqlCall)
      (others : ∀ s', s' ≠ s → (db'.phase s').sqlCall = (db.phase s').sqlCall) (history : db'.history = db.history)
  /-- A call that was in progress returns. -/
  | returns (e : Entry σ) (of : act.callOf = none) (call : (db.phase e.session).sqlCall = some e.sqlCall)
      (idle : db'.phase e.session = .idle)
      (others : ∀ s', s' ≠ e.session → (db'.phase s').sqlCall = (db.phase s').sqlCall)
      (history : db'.history = db.history ++ [e])

section Steps
variable [DecidableEq σ]

theorem follows_setPhase {db u : Db σ} {act : Act σ} {s : σ} {p : Phase} (of : act.callOf = none)
    (hphase : u.phase = db.phase) (hhistory : u.history = db.history) (hcall : p.sqlCall = (db.phase s).sqlCall) :
    Follows db (u.setPhase s p) act := by
  refine .goesOn of (fun s' => ?_) hhistory
  by_cases heq : s' = s
  · rw [heq, Db.setPhase_self, hcall]
  · rw [Db.setPhase_ne _ _ heq, hphase]

theorem follows_finish {db u : Db σ} {act : Act σ} {s : σ} {e : Entry σ} {t : Tables} (of : act.callOf = none)
    (hphase : u.phase = db.phase) (hhistory : u.history = db.history) (hsession : e.session = s)
    (hcall : (db.phase s).sqlCall = some e.sqlCall) : Follows db {u.finish s e with tables := t} act := by
  subst hsession
  refine .returns e of hcall (u.finish_self e.session e) (fun s' hne => ?_) ?_
  · show ((u.finish e.session e).phase s').sqlCall = _
    rw [Db.finish_ne _ _ hne, hphase]
  · rw [← hhistory]
    rfl

theorem begin_follows {db db' : Db σ} {act : Act σ} {s : σ} {p : Phase} (of : act.callOf = some s)
    (hcall : p.sqlCall = act.sqlCall) (hs : db.begin s p = .ok db') : Follows db db' act := by
  unfold Db.begin at hs
  split at hs
  · rename_i hidle
    cases hs
    refine .begins s of hidle ?_ (fun s' hne => ?_) rfl
    · rw [Db.setPhase_self, hcall]
    · rw [Db.setPhase_ne _ _ hne]
  · cases hs

theorem update_follows {db db' : Db σ} {s : σ} (hs : db.update s = .ok db') : Follows db db' (.update s) := by
  unfold Db.update at hs
  split at hs
  · rename_i f a now hphase
    have hcall : (db.phase s).sqlCall = some (.push f a) := by
      rw [hphase]
      rfl
    split at hs
    · cases hs
    · split at hs
      · cases hs
        exact follows_finish rfl rfl rfl rfl hcall
      · cases hs
        exact follows_finish rfl rfl rfl rfl hcall
      · cases hs
        exact follows_setPhase rfl rfl rfl hcall.symm
  · cases hs

theorem insert_follows {db db' : Db σ} {s : σ} (hs : db.insert s = .ok db') : Follows db db' (.insert s) := by
  unfold Db.insert at hs
  split at hs
  · rename_i f a now row hphase
    have hcall : (db.phase s).sqlCall = some (.push f a) := by
      rw [hphase]
      rfl
    split at hs
    · cases hs
      exact follows_finish (u := {db with seq := min (db.seq + 1) 2147483647}) rfl rfl rfl rfl hcall
    · cases hs
      exact follows_setPhase (u := {db with seq := db.seq + 1}) rfl rfl rfl hcall.symm
  · cases hs

theorem commit_follows {db db' : Db σ} {s : σ} (hs : db.commit s = .ok db') : Follows db db' (.commit s) := by
  unfold Db.commit at hs
  split at hs
  · rename_i f a row r hphase
    cases hs
    exact follows_finish rfl rfl rfl rfl (by rw [hphase]; rfl)
  · cases hs

theorem select_follows {db db' : Db σ} {s : σ} {rows : List Transacao} (hs : db.select s rows = .ok db') :
    Follows db db' (.select s rows) := by
  unfold Db.select at hs
  split at hs
  · rename_i id now hphase
    split at hs
    · cases hs
      exact follows_finish rfl rfl rfl rfl (by rw [hphase]; rfl)
    · cases hs
  · cases hs

theorem cancel_follows {db db' : Db σ} {s : σ} (hs : db.cancel s = .ok db') : Follows db db' (.cancel s) := by
  unfold Db.cancel at hs
  split at hs
  · cases hs
  · rename_i hphase
    cases hs
    exact follows_finish rfl rfl rfl rfl (by rw [hphase]; rfl)
  · rename_i hphase
    cases hs
    exact follows_finish rfl rfl rfl rfl (by rw [hphase]; rfl)
  · rename_i hphase
    cases hs
    exact follows_finish rfl rfl rfl rfl (by rw [hphase]; rfl)
  · rename_i hphase
    cases hs
    exact follows_finish rfl rfl rfl rfl (by rw [hphase]; rfl)

theorem step_follows {db db' : Db σ} {act : Act σ} (hs : db.step act = .ok db') : Follows db db' act := by
  cases act with
  | tick =>
    cases hs
    exact .goesOn rfl (fun _ => rfl) rfl
  | call s f a => exact begin_follows rfl rfl hs
  | callExtrato s id => exact begin_follows rfl rfl hs
  | update s => exact update_follows hs
  | insert s => exact insert_follows hs
  | commit s => exact commit_follows hs
  | select s rows => exact select_follows hs
  | cancel s => exact cancel_follows hs

end Steps
end Rinha.Database
