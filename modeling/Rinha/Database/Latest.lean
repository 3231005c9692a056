import Rinha.Database.Ledger
import Rinha.Library.Sorted

/-! Which transactions an extrato shows.

A call's row has the time at which the call began, and a call is applied to the saldo
when it commits: until then it has waited for the lock of its client's row and had it. An
extrato sorts by the times. So it shows the latest calls in reverse of the order in
which they were applied only where this order is also that of the times. -/
namespace Rinha.Database
open Library

variable {σ : Type*}

/-- The columns that `get_extrato` selects. -/
def Transacao.colunas (r : Transacao) : Integer × Char × Varchar 10 × Nat :=
  (r.valor, r.tipo, r.descricao, r.realizada_em)

section Run
variable [DecidableEq σ]

/-- The row that an act commits, and with which it changes the committed saldo. -/
def Db.applies (db : Db σ) : Act σ → List Transacao
  | .commit s =>
    match db.phase s with
    | .inserted _ _ _ r => [r]
    | _ => []
  | _ => []

/-- The rows of the calls in the order in which they were applied. -/
def applied (db : Db σ) : List (Act σ) → List Transacao
  | [] => []
  | act :: rest =>
    match db.step act with
    | .ok db' => db.applies act ++ applied db' rest
    | .error _ => []

/-- A client's applied calls, the latest first. -/
def latestFirst (acts : List (Act σ)) (id : Integer) : List Transacao :=
  ((applied Db.seeded acts).filter fun r => r.cliente_id = id).reverse

/-! ### The committed rows -/

theorem update_tables {db db' : Db σ} {s : σ} (hs : db.update s = .ok db') : db'.tables = db.tables := by
  unfold Db.update at hs
  split at hs
  · split at hs
    · cases hs
    · split at hs
      · cases hs
        exact Db.finish_tables db s _
      · cases hs
        exact Db.finish_tables db s _
      · cases hs
        rfl
  · cases hs

theorem insert_tables {db db' : Db σ} {s : σ} (hs : db.insert s = .ok db') : db'.tables = db.tables := by
  unfold Db.insert at hs
  split at hs
  · split at hs
    · cases hs
      exact Db.finish_tables _ s _
    · cases hs
      rfl
  · cases hs

theorem begin_tables {db db' : Db σ} {s : σ} {p : Phase} (hs : db.begin s p = .ok db') :
    db'.tables = db.tables := by
  unfold Db.begin at hs
  split at hs
  · cases hs
    rfl
  · cases hs

theorem select_ok {db db' : Db σ} {s : σ} {rows : List Transacao} (hs : db.select s rows = .ok db') :
    ∃ id now, db.phase s = .reading id now ∧ db.tables.Ordered id rows ∧
      db' = db.finish s (.extrato s id db.tables (getExtrato db.tables id now rows)) := by
  unfold Db.select at hs
  split at hs
  · rename_i id now hphase
    split at hs
    · rename_i hordered
      cases hs
      exact ⟨id, now, hphase, hordered, rfl⟩
    · cases hs
  · cases hs

theorem cancel_tables {db db' : Db σ} {s : σ} (hs : db.cancel s = .ok db') : db'.tables = db.tables := by
  unfold Db.cancel at hs
  split at hs
  · cases hs
  all_goals
    cases hs
    exact Db.finish_tables db s _

theorem commit_tables {db db' : Db σ} {s : σ} (hs : db.commit s = .ok db') :
    db'.tables.transacoes = db.tables.transacoes ++ db.applies (.commit s) := by
  unfold Db.commit at hs
  split at hs
  · rename_i f a row r hphase
    cases hs
    simp only [Db.applies, hphase]
    rfl
  · cases hs

/-- A step adds the rows it applies. -/
theorem transacoes_step {db db' : Db σ} {act : Act σ} (hs : db.step act = .ok db') :
    db'.tables.transacoes = db.tables.transacoes ++ db.applies act := by
  have hsame : db.applies act = [] → db'.tables = db.tables →
      db'.tables.transacoes = db.tables.transacoes ++ db.applies act := by
    intro hnone htables
    rw [hnone, htables, List.append_nil]
  cases act with
  | tick =>
    cases hs
    exact hsame rfl rfl
  | call s f a => exact hsame rfl (begin_tables hs)
  | callExtrato s id => exact hsame rfl (begin_tables hs)
  | update s => exact hsame rfl (update_tables hs)
  | insert s => exact hsame rfl (insert_tables hs)
  | commit s => exact commit_tables hs
  | select s rows =>
    obtain ⟨_, _, _, _, rfl⟩ := select_ok hs
    exact hsame rfl (Db.finish_tables db s _)
  | cancel s => exact hsame rfl (cancel_tables hs)

/-- What is committed after a run is what was before, and the rows it applied. -/
theorem transacoes_run {db db' : Db σ} {acts : List (Act σ)} (hrun : run Db.step db acts = .ok db') :
    db'.tables.transacoes = db.tables.transacoes ++ applied db acts := by
  induction acts generalizing db with
  | nil =>
    cases hrun
    exact (List.append_nil _).symm
  | cons act rest ih =>
    cases hstep : db.step act with
    | error e =>
      rw [run, hstep] at hrun
      cases hrun
    | ok mid =>
      rw [run_ok _ _ _ _ hstep] at hrun
      rw [ih hrun, transacoes_step hstep, List.append_assoc]
      simp only [applied, hstep]

theorem finish_history (db : Db σ) (s : σ) (e : Entry σ) : (db.finish s e).history = db.history ++ [e] := rfl

/-! ### The extrato -/

/-- Whatever order rows of one time come in, the extrato of the session shows the ten
latest calls on its client, in reverse of the order in which they were applied. -/
def ShowsLatest (db : Db σ) (s : σ) (latest : List Transacao) : Prop :=
  ∀ rows db', db.step (.select s rows) = .ok db' → ∃ id now reply,
    db.phase s = .reading id now ∧ db'.history = db.history ++ [.extrato s id db.tables reply] ∧
      reply.ultimas_transacoes.map Transacao.colunas = (latest.take 10).map Transacao.colunas

/-- Each of the ten latest calls began after every call that was applied before it, or
shows the same columns as that one. -/
def BeganInOrder (latest : List Transacao) : Prop :=
  ∀ i j r r', i < j → i < 10 → latest[i]? = some r → latest[j]? = some r' →
    r'.realizada_em < r.realizada_em ∨ r'.colunas = r.colunas

theorem beganInOrder_iff (latest : List Transacao) :
    BeganInOrder latest ↔ Unmoved (fun c => c.2.2.2) 10 (latest.map Transacao.colunas) := by
  constructor
  · intro h i j b c hij hi hb hc
    rw [List.getElem?_map] at hb hc
    obtain ⟨r, hr, rfl⟩ := Option.map_eq_some_iff.mp hb
    obtain ⟨r', hr', rfl⟩ := Option.map_eq_some_iff.mp hc
    exact h i j r r' hij hi hr hr'
  · intro h i j r r' hij hi hr hr'
    refine h i j r.colunas r'.colunas hij hi ?_ ?_
    · rw [List.getElem?_map, hr, Option.map_some]
    · rw [List.getElem?_map, hr', Option.map_some]

/-- The SELECT shows the first ten of the rows it sorted. -/
theorem showsLatest_rows {db : Db σ} {s : σ} {id : Integer} {now : Nat} (hs : db.phase s = .reading id now)
    (latest : List Transacao) : ShowsLatest db s latest ↔ ∀ rows, db.tables.Ordered id rows →
      (rows.take 10).map Transacao.colunas = (latest.take 10).map Transacao.colunas := by
  constructor
  · intro h rows hordered
    have hselect : db.step (.select s rows) =
        .ok (db.finish s (.extrato s id db.tables (getExtrato db.tables id now rows))) := by
      show db.select s rows = _
      unfold Db.select
      rw [hs]
      exact if_pos hordered
    obtain ⟨_, _, reply, _, hhistory, hshown⟩ := h rows _ hselect
    rw [finish_history] at hhistory
    cases List.singleton_injective (List.append_cancel_left hhistory)
    exact hshown
  · intro h rows db' hstep
    obtain ⟨id', now', hphase, hordered, rfl⟩ := select_ok hstep
    cases hs.symm.trans hphase
    exact ⟨id, now, _, hs, rfl, h rows hordered⟩

/-- **The latest transactions**: in every run, a `get_extrato` whose SELECT comes next
shows them exactly when they began in the order in which they were applied. -/
theorem showsLatest_iff {acts : List (Act σ)} {db : Db σ} (hrun : run Db.step Db.seeded acts = .ok db)
    {s : σ} {id : Integer} {now : Nat} (hs : db.phase s = .reading id now) :
    ShowsLatest db s (latestFirst acts id) ↔ BeganInOrder (latestFirst acts id) := by
  have hperm : (db.tables.transacoesDe id).Perm (latestFirst acts id) := by
    unfold Tables.transacoesDe latestFirst
    rw [transacoes_run hrun]
    exact (List.reverse_perm _).symm
  rw [showsLatest_rows hs, beganInOrder_iff, ← take_sorted_iff]
  refine forall_congr' fun rows => ?_
  show (_ ∧ _ → _) ↔ _
  rw [hperm.congr_right rows, and_imp]
  exact Iff.rfl

end Run

/-! ### Calls that overlap -/

/-- A call for client 1, of one cent, with a description of one character. -/
def umCentavo (descricao : Char) : Args :=
  ⟨.ofFin 1, .ofFin 1, some (.cast 10 [descricao])⟩

/-- A credit and, when it has ended, a debit; then an extrato is asked for. -/
def oneByOne : List (Act (Fin 3)) :=
  [.call 0 .pushCredito (umCentavo 'a'), .update 0, .insert 0, .commit 0, .tick,
    .call 1 .pushDebito (umCentavo 'b'), .update 1, .insert 1, .commit 1, .callExtrato 2 (.ofFin 1)]

theorem oneByOne_shown : ∃ db, run Db.step Db.seeded oneByOne = .ok db ∧
    ShowsLatest db 2 (latestFirst oneByOne (.ofFin 1)) := by
  obtain ⟨_, db, hseeded, hrun, hphase⟩ := exists_run_ok Db.step
    (.ok Db.seeded : Except Blocked (Db (Fin 3))) oneByOne (fun db => db.phase 2) (.reading (.ofFin 1) 1)
    (by decide)
  cases hseeded
  refine ⟨db, hrun, (showsLatest_iff hrun hphase).mpr fun i j r r' hij hi hr hr' => ?_⟩
  have hlatest : latestFirst oneByOne (.ofFin 1) =
      [⟨2, .ofFin 1, .ofFin 1, 'd', .cast 10 ['b'], 1⟩, ⟨1, .ofFin 1, .ofFin 1, 'c', .cast 10 ['a'], 0⟩] := by
    decide
  rw [hlatest] at hr hr'
  obtain ⟨hj, _⟩ := List.getElem?_eq_some_iff.mp hr'
  obtain ⟨rfl, rfl⟩ : i = 0 ∧ j = 1 := by
    simp only [List.length_cons, List.length_nil] at hj
    omega
  cases hr
  cases hr'
  exact .inl (by decide)

/-- A credit and a debit that begins later and is applied before it. -/
def overlapping : List (Act (Fin 3)) :=
  [.call 0 .pushCredito (umCentavo 'a'), .tick, .call 1 .pushDebito (umCentavo 'b'), .update 1, .insert 1,
    .commit 1, .update 0, .insert 0, .commit 0, .callExtrato 2 (.ofFin 1)]

/-- The extrato shows the debit first, though the credit was applied last. -/
theorem overlapping_shown : ∃ db, run Db.step Db.seeded overlapping = .ok db ∧
    (latestFirst overlapping (.ofFin 1)).map Transacao.tipo = ['c', 'd'] ∧
      ¬ ShowsLatest db 2 (latestFirst overlapping (.ofFin 1)) := by
  obtain ⟨_, db, hseeded, hrun, hdb⟩ := exists_run_ok Db.step
    (.ok Db.seeded : Except Blocked (Db (Fin 3))) overlapping
    (fun db => (db.phase 2, decide (db.tables.Ordered (.ofFin 1) db.tables.transacoes),
      db.tables.transacoes.map Transacao.tipo)) (.reading (.ofFin 1) 1, true, ['d', 'c'])
    (by decide)
  cases hseeded
  simp only [Prod.mk.injEq, decide_eq_true_eq] at hdb
  obtain ⟨hphase, hordered, htipo⟩ := hdb
  have hlatest : (latestFirst overlapping (.ofFin 1)).map Transacao.tipo = ['c', 'd'] := by decide
  refine ⟨db, hrun, hlatest, fun h => ?_⟩
  have hshown := (showsLatest_rows hphase _).mp h _ hordered
  -- Of the columns `tipo` is enough.
  have htipos := congrArg (List.map fun c => c.2.1) hshown
  rw [List.map_map, List.map_map] at htipos
  have htaken : (db.tables.transacoes.map Transacao.tipo).take 10 =
      ((latestFirst overlapping (.ofFin 1)).map Transacao.tipo).take 10 := by
    rw [← List.map_take, ← List.map_take]
    exact htipos
  rw [htipo, hlatest] at htaken
  cases htaken

end Rinha.Database
