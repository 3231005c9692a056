import Rinha.Database.Ledger
import Rinha.Database.Progress
import Rinha.Library.Replay

/-! The calls are atomic.

However the statements of the sessions are interleaved, what the calls return and
what they leave in the tables is what they would one after the other, each run alone
(`Push.apply`), in the order in which they take effect (`calls_atomic`). A push takes
effect with its commit, an extrato with its snapshot, and a refused or failed call where
that is decided: a step at which the session has the call in progress, so the point is
between the call's beginning and its end. In particular a debit is only refused on a
saldo that there was.

What makes it so: a call that has done its UPDATE has what the UPDATE would give on
the tables as they are now, since nobody else commits its client's row (`Prepared`). -/
namespace Rinha.Database
open Library

/-! ### A call alone -/

/-- The body of `push_credito` and `push_debito`, run on these tables with nothing in
between: its reply, and the tables it commits. -/
def Push.apply (f : Push) (t : Tables) (seq now : Nat) (a : Args) : Reply × Tables :=
  match t.updateSaldo (f.expr a.valor_in) a.cliente_id_in with
  | .error e => (f.handle e, t)
  -- IF NOT FOUND THEN RETURN NULL
  | .ok none => (.null, t)
  | .ok (some row) =>
    match t.insertTransacao seq now a.cliente_id_in a.valor_in f.tipo a.descricao_in with
    | .error e => (f.handle e, t)
    | .ok r => (.json row.limite row.saldo, t.commit row r)

variable {σ : Type*}

/-- What is in the history is what the call alone does to the tables: with some
number of the sequence and some `NOW()`, unless it was cut off. -/
inductive Alone : Tables → Entry σ → Tables → Prop where
  | pushed (t : Tables) (s : σ) (f : Push) (a : Args) (seq now : Nat) :
      Alone t (.pushed s f a (f.apply t seq now a).1) (f.apply t seq now a).2
  | canceled (t : Tables) (s : σ) (f : Push) (a : Args) : Alone t (.pushed s f a (.raised .canceled)) t
  | extrato (t : Tables) (s : σ) (id : Integer) (now : Nat) {rows : List Transacao} (h : t.Ordered id rows) :
      Alone t (.extrato s id t (getExtrato t id now rows)) t
  | noExtrato (t : Tables) (s : σ) (id : Integer) : Alone t (.noExtrato s id) t

theorem Alone.of_apply {t t' : Tables} {s : σ} {f : Push} {a : Args} {reply : Reply} (seq now : Nat)
    (h : f.apply t seq now a = (reply, t')) : Alone t (.pushed s f a reply) t' := by
  have hpushed := Alone.pushed t s f a seq now
  rw [h] at hpushed
  exact hpushed

/-! ### What a call has prepared -/

/-- What a call has done so far is what it would do on these tables. -/
def Prepared (t : Tables) : Phase → Prop
  | .updated f a _ row => t.updateSaldo (f.expr a.valor_in) a.cliente_id_in = .ok (some row)
  | .inserted f a row r => t.updateSaldo (f.expr a.valor_in) a.cliente_id_in = .ok (some row) ∧
      ∃ seq now, t.insertTransacao seq now a.cliente_id_in a.valor_in f.tipo a.descricao_in = .ok r
  | _ => True

/-- Both statements look at the one client's row alone. -/
theorem updateSaldo_congr {t t' : Tables} {id : Integer} (h : t'.cliente id = t.cliente id)
    (expr : Integer → Except SqlError Integer) : t'.updateSaldo expr id = t.updateSaldo expr id := by
  unfold Tables.updateSaldo
  rw [h]

theorem insertTransacao_congr {t t' : Tables} {id : Integer} (h : t'.cliente id = t.cliente id) (seq now : Nat)
    (valor : Integer) (tipo : Char) (descricao : Option (Varchar 10)) :
    t'.insertTransacao seq now id valor tipo descricao = t.insertTransacao seq now id valor tipo descricao := by
  unfold Tables.insertTransacao
  rw [h]

theorem Prepared.congr {t t' : Tables} {p : Phase} (h : Prepared t p)
    (hrow : ∀ id, p.locked = some id → t'.cliente id = t.cliente id) : Prepared t' p := by
  cases p with
  | updated f a now row =>
    show t'.updateSaldo _ _ = _
    rw [updateSaldo_congr (hrow _ rfl)]
    exact h
  | inserted f a row r =>
    obtain ⟨hupdate, seq, now, hinsert⟩ := h
    refine ⟨?_, seq, now, ?_⟩
    · rw [updateSaldo_congr (hrow _ rfl)]
      exact hupdate
    · rw [insertTransacao_congr (hrow _ rfl)]
      exact hinsert
  | idle => trivial
  | called f a now => trivial
  | reading id now => trivial

/-- Every session has prepared what it would do on what is committed. -/
def AllPrepared (db : Db σ) : Prop := ∀ s, Prepared db.tables (db.phase s)

section Steps
variable [DecidableEq σ]

/-- One session goes on; the others' rows are as they were. -/
theorem AllPrepared.move {db db' : Db σ} (h : AllPrepared db) (s : σ)
    (hother : ∀ s', s' ≠ s → db'.phase s' = db.phase s')
    (hrow : ∀ s' id, s' ≠ s → (db.phase s').locked = some id → db'.tables.cliente id = db.tables.cliente id)
    (hs : Prepared db'.tables (db'.phase s)) : AllPrepared db' := by
  intro s'
  by_cases heq : s' = s
  · rw [heq]
    exact hs
  · rw [hother s' heq]
    exact (h s').congr fun id hid => hrow s' id heq hid

theorem AllPrepared.setPhase {db u : Db σ} (h : AllPrepared db) (s : σ) {p : Phase} (hphase : u.phase = db.phase)
    (htables : u.tables = db.tables) (hp : Prepared db.tables p) : AllPrepared (u.setPhase s p) := by
  refine h.move s (fun s' hne => ?_) (fun s' id _ _ => ?_) ?_
  · rw [Db.setPhase_ne _ _ hne, hphase]
  · exact congrArg (Tables.cliente · id) htables
  · rw [Db.setPhase_self]
    show Prepared u.tables p
    rw [htables]
    exact hp

/-- A call that ends without a commit. -/
theorem AllPrepared.finish {db u : Db σ} (h : AllPrepared db) (s : σ) (e : Entry σ) (hphase : u.phase = db.phase)
    (htables : u.tables = db.tables) : AllPrepared (u.finish s e) := by
  have hsame : (u.finish s e).tables = db.tables := (Db.finish_tables u s e).trans htables
  refine h.move s (fun s' hne => ?_) (fun s' id _ _ => ?_) ?_
  · rw [Db.finish_ne _ _ hne, hphase]
  · exact congrArg (Tables.cliente · id) hsame
  · rw [Db.finish_self]
    trivial

/-! ### One step -/

/-- The entry is of the call of this phase: of the same function, with the same arguments. -/
def Phase.Returns : Phase → Entry σ → Prop
  | called f a _, .pushed _ f' a' _ => f = f' ∧ a = a'
  | updated f a _ _, .pushed _ f' a' _ => f = f' ∧ a = a'
  | inserted f a _ _, .pushed _ f' a' _ => f = f' ∧ a = a'
  | reading id _, .extrato _ id' _ _ => id = id'
  | reading id _, .noExtrato _ id' => id = id'
  | _, _ => False

/-- A step at which a call takes effect is the call alone on what is committed, and the
call was in progress; every other step leaves what is committed. -/
structure AtPoint (db db' : Db σ) : Prop where
  prepared : AllPrepared db'
  adds : Adds Alone Db.tables Db.history db db'
  inCall : ∀ e, db'.history = db.history ++ [e] → (db.phase e.session).Returns e

omit [DecidableEq σ] in
theorem AtPoint.quiet {db db' : Db σ} (h : AllPrepared db') (hhistory : db'.history = db.history)
    (htables : db'.tables = db.tables) : AtPoint db db' := by
  refine ⟨h, .none hhistory htables, fun e he => ?_⟩
  rw [hhistory] at he
  have hlen := congrArg List.length he
  rw [List.length_append] at hlen
  exact absurd hlen (Nat.ne_of_lt (Nat.lt_succ_self _))

omit [DecidableEq σ] in
/-- The entry that was added is the one whose call was in progress. -/
theorem inCall_of {db db' : Db σ} {e : Entry σ} (hhistory : db'.history = db.history ++ [e])
    (he : (db.phase e.session).Returns e) :
    ∀ e', db'.history = db.history ++ [e'] → (db.phase e'.session).Returns e' := by
  intro e' he'
  rw [hhistory] at he'
  rw [← List.singleton_injective (List.append_cancel_left he')]
  exact he

theorem atPoint_finish {db u : Db σ} (h : AllPrepared db) {s : σ} {e : Entry σ} (hphase : u.phase = db.phase)
    (htables : u.tables = db.tables) (hhistory : u.history = db.history) (he : Alone db.tables e db.tables)
    (hreturns : (db.phase e.session).Returns e) : AtPoint db (u.finish s e) := by
  have hadded : (u.finish s e).history = db.history ++ [e] := by
    rw [← hhistory]
    rfl
  refine ⟨h.finish s e hphase htables, .one hadded ?_, inCall_of hadded hreturns⟩
  rw [(Db.finish_tables u s e).trans htables]
  exact he

theorem begin_atPoint {db db' : Db σ} {s : σ} {p : Phase} (h : AllPrepared db) (hp : Prepared db.tables p)
    (hs : db.begin s p = .ok db') : AtPoint db db' := by
  unfold Db.begin at hs
  split at hs
  · cases hs
    exact .quiet (h.setPhase s rfl rfl hp) rfl rfl
  · cases hs

theorem update_atPoint {db db' : Db σ} {s : σ} (h : AllPrepared db) (hs : db.update s = .ok db') : AtPoint db db' := by
  unfold Db.update at hs
  split at hs
  · rename_i f a now hphase
    have hends : ∀ reply, f.apply db.tables 0 now a = (reply, db.tables) →
        AtPoint db (db.finish s (.pushed s f a reply)) := by
      intro reply happly
      refine atPoint_finish h rfl rfl rfl (.of_apply 0 now happly) ?_
      show (db.phase s).Returns _
      rw [hphase]
      exact ⟨rfl, rfl⟩
    split at hs
    · cases hs
    · split at hs
      · rename_i e hupdate
        cases hs
        exact hends _ (by simp only [Push.apply, hupdate])
      · rename_i hupdate
        cases hs
        exact hends _ (by simp only [Push.apply, hupdate])
      · rename_i row hupdate
        cases hs
        exact .quiet (AllPrepared.setPhase (u := db.lock a.cliente_id_in s) h s rfl rfl hupdate) rfl rfl
  · cases hs

theorem insert_atPoint {db db' : Db σ} {s : σ} (h : AllPrepared db) (hs : db.insert s = .ok db') : AtPoint db db' := by
  unfold Db.insert at hs
  split at hs
  · rename_i f a now row hphase
    have hupdate : db.tables.updateSaldo (f.expr a.valor_in) a.cliente_id_in = .ok (some row) := by
      have hs := h s
      rw [hphase] at hs
      exact hs
    split at hs
    · rename_i e hinsert
      cases hs
      refine atPoint_finish h rfl rfl rfl (.of_apply db.seq now ?_) ?_
      · simp only [Push.apply, hupdate, hinsert]
      · show (db.phase s).Returns _
        rw [hphase]
        exact ⟨rfl, rfl⟩
    · rename_i r hinsert
      cases hs
      exact .quiet (AllPrepared.setPhase (u := {db with seq := db.seq + 1}) h s rfl rfl
        ⟨hupdate, db.seq, now, hinsert⟩) rfl rfl
  · cases hs

/-- The commit is the one point at which the tables change. -/
theorem commit_atPoint {db db' : Db σ} {s : σ} (hlocks : Locks db) (h : AllPrepared db) (hs : db.commit s = .ok db') :
    AtPoint db db' := by
  unfold Db.commit at hs
  split at hs
  · rename_i f a row r hphase
    cases hs
    have hprepared := h s
    rw [hphase] at hprepared
    obtain ⟨hupdate, seq, now, hinsert⟩ := hprepared
    have hlocked : (db.phase s).locked = some a.cliente_id_in := by
      rw [hphase]
      rfl
    obtain ⟨_, _, hid, _⟩ := Tables.updateSaldo_some hupdate
    have hadded : {db.finish s (.pushed s f a (.json row.limite row.saldo)) with
        tables := db.tables.commit row r}.history = db.history ++ [.pushed s f a (.json row.limite row.saldo)] := rfl
    refine ⟨?_, .one hadded (.of_apply seq now ?_), inCall_of hadded ?_⟩
    · refine h.move s (fun s' hne => db.finish_ne (.pushed s f a (.json row.limite row.saldo)) hne)
        (fun s' id hne hid' => ?_) ?_
      · refine Tables.cliente_commit_other fun heq => hne ?_
        -- The row that is committed is locked by this session alone.
        have hheld := hlocks.held s' id hid'
        rw [← heq, hid, hlocks.held s _ hlocked] at hheld
        exact (Option.some.inj hheld).symm
      · show Prepared _ ((db.finish s (.pushed s f a (.json row.limite row.saldo))).phase s)
        rw [Db.finish_self]
        trivial
    · simp only [Push.apply, hupdate, hinsert]
    · show (db.phase s).Returns _
      rw [hphase]
      exact ⟨rfl, rfl⟩
  · cases hs

theorem select_atPoint {db db' : Db σ} {s : σ} {rows : List Transacao} (h : AllPrepared db)
    (hs : db.select s rows = .ok db') : AtPoint db db' := by
  unfold Db.select at hs
  split at hs
  · rename_i id now hphase
    split at hs
    · rename_i hordered
      cases hs
      refine atPoint_finish h rfl rfl rfl (.extrato db.tables s id now hordered) ?_
      show (db.phase s).Returns _
      rw [hphase]
      exact rfl
    · cases hs
  · cases hs

theorem cancel_atPoint {db db' : Db σ} {s : σ} (h : AllPrepared db) (hs : db.cancel s = .ok db') : AtPoint db db' := by
  have hends : ∀ e : Entry σ, e.session = s → Alone db.tables e db.tables → (db.phase s).Returns e →
      AtPoint db (db.finish s e) := by
    intro e hsession he hreturns
    refine atPoint_finish h rfl rfl rfl he ?_
    rw [hsession]
    exact hreturns
  unfold Db.cancel at hs
  split at hs
  · cases hs
  · rename_i hphase
    cases hs
    exact hends _ rfl (.canceled ..) (by rw [hphase]; exact ⟨rfl, rfl⟩)
  · rename_i hphase
    cases hs
    exact hends _ rfl (.canceled ..) (by rw [hphase]; exact ⟨rfl, rfl⟩)
  · rename_i hphase
    cases hs
    exact hends _ rfl (.canceled ..) (by rw [hphase]; exact ⟨rfl, rfl⟩)
  · rename_i hphase
    cases hs
    exact hends _ rfl (.noExtrato ..) (by rw [hphase]; exact rfl)

theorem step_atPoint {db db' : Db σ} {act : Act σ} (hlocks : Locks db) (h : AllPrepared db)
    (hs : db.step act = .ok db') : AtPoint db db' := by
  cases act with
  | tick =>
    cases hs
    exact .quiet h rfl rfl
  | call s f a => exact begin_atPoint (p := .called f a db.clock) h trivial hs
  | callExtrato s id => exact begin_atPoint (p := .reading id db.clock) h trivial hs
  | update s => exact update_atPoint h hs
  | insert s => exact insert_atPoint h hs
  | commit s => exact commit_atPoint hlocks h hs
  | select s rows => exact select_atPoint h hs
  | cancel s => exact cancel_atPoint h hs

/-! ### Every interleaving -/

/-- A call takes effect in a step at which it is in progress. -/
def ReturnsInCall (db : Db σ) (act : Act σ) : Prop :=
  ∀ db' e, db.step act = .ok db' → db'.history = db.history ++ [e] → (db.phase e.session).Returns e

theorem atomic_step (db : Db σ) (act : Act σ) (db' : Db σ) (h : Locks db ∧ AllPrepared db)
    (hs : db.step act = .ok db') : (Locks db' ∧ AllPrepared db') ∧ AtPoint db db' := by
  have hpoint := step_atPoint h.1 h.2 hs
  exact ⟨⟨(step_effect h.1 hs).1, hpoint.prepared⟩, hpoint⟩

omit [DecidableEq σ] in
theorem atomic_seeded : Locks (Db.seeded : Db σ) ∧ AllPrepared (Db.seeded : Db σ) :=
  ⟨locks_seeded, fun _ => trivial⟩

/-- What is committed is what the calls leave, one after the other. -/
theorem replays_alone (acts : List (Act σ)) :
    Throughout Db.step (fun db => Replays Alone seeded db.history db.tables) (Db.seeded : Db σ) acts :=
  replays_throughout (fun db act db' h hs => ⟨(atomic_step db act db' h hs).1, (atomic_step db act db' h hs).2.adds⟩)
    atomic_seeded (.nil seeded) acts

/-- **The calls are atomic**: in every state that calls lead to, however they are
interleaved, the history is one of calls that were run alone, one after the other, and
the tables are what they left; and each took effect while it was in progress. -/
theorem calls_atomic (acts : List (Act σ)) :
    Throughout Db.step (fun db => Replays Alone seeded db.history db.tables) (Db.seeded : Db σ) acts ∧
      EachStep Db.step ReturnsInCall (Db.seeded : Db σ) acts := by
  constructor
  · exact replays_alone acts
  · refine eachStep_of_all (fun db act db' h hs => ⟨(atomic_step db act db' h hs).1, ?_⟩) atomic_seeded acts
    intro db₁ e hs₁
    exact (atomic_step db act db₁ h hs₁).2.inCall e

end Steps
end Rinha.Database
