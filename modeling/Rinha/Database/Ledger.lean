import Rinha.Database.Sessions
import Rinha.Library.Ledger

/-! The ledger invariant.

Between its UPDATE and its commit a call has a new version of one row, computed
from the committed one (`Writing`), and the row's lock, so no other call commits
that row meanwhile (`Locks`). From this one commit adds one row and moves one
saldo by the same amount, and every other step leaves the tables alone
(`step_effect`). By induction over any interleaving, each client's saldo is what
its rows add up to and what its committed calls were answered with (`Books`). -/
namespace Rinha.Database
open Library

variable {σ : Type*}

/-! ### Sessions that are writing -/

/-- The row a call has written and not committed. -/
def Phase.writing : Phase → Option (Push × Args × Cliente)
  | updated f a _ row => some (f, a, row)
  | inserted f a row _ => some (f, a, row)
  | _ => none

theorem Phase.locked_eq (p : Phase) : p.locked = p.writing.map fun w => w.2.1.cliente_id_in := by
  cases p <;> rfl

/-- `row` is the committed row of the client with the call's amount added. -/
def Writing (t : Tables) (f : Push) (a : Args) (row : Cliente) : Prop :=
  ∃ c, t.cliente a.cliente_id_in = some c ∧ row.id = a.cliente_id_in ∧ row.limite = c.limite ∧
    row.saldo.val = c.saldo.val + f.signed a.valor_in

/-- The row of `transacoes` the call inserts. -/
structure Records (f : Push) (a : Args) (r : Transacao) : Prop where
  cliente_id : r.cliente_id = a.cliente_id_in
  valor : r.valor = a.valor_in
  tipo : r.tipo = f.tipo
  descricao : a.descricao_in = some r.descricao

structure Locks (db : Db σ) : Prop where
  held : ∀ s id, (db.phase s).locked = some id → db.locks id = some s
  writing : ∀ s f a row, (db.phase s).writing = some (f, a, row) → Writing db.tables f a row
  records : ∀ s f a row r, db.phase s = .inserted f a row r → Records f a r

/-- A change that leaves the phases of the writing sessions, their locks and the
rows they write. -/
theorem Locks.transfer {db db' : Db σ} (h : Locks db)
    (hsame : ∀ s id, (db'.phase s).locked = some id → db'.phase s = db.phase s ∧
      db'.locks id = db.locks id ∧ db'.tables.cliente id = db.tables.cliente id) : Locks db' := by
  have hwriting : ∀ s f a row, (db'.phase s).writing = some (f, a, row) →
      db'.phase s = db.phase s ∧
        db'.tables.cliente a.cliente_id_in = db.tables.cliente a.cliente_id_in := by
    intro s f a row hw
    obtain ⟨hp, _, ht⟩ := hsame s a.cliente_id_in (by rw [Phase.locked_eq, hw]; rfl)
    exact ⟨hp, ht⟩
  refine ⟨fun s id hid => ?_, fun s f a row hw => ?_, fun s f a row r hr => ?_⟩
  · obtain ⟨hp, hl, _⟩ := hsame s id hid
    rw [hl]
    exact h.held s id (hp ▸ hid)
  · obtain ⟨hp, ht⟩ := hwriting s f a row hw
    obtain ⟨c, hc, hrow⟩ := h.writing s f a row (hp ▸ hw)
    exact ⟨c, ht.trans hc, hrow⟩
  · obtain ⟨hp, _⟩ := hwriting s f a row (by rw [hr]; rfl)
    exact h.records s f a row r (hp ▸ hr)

theorem locks_seeded : Locks (Db.seeded : Db σ) :=
  ⟨(fun _ _ h => nomatch h), (fun _ _ _ _ h => nomatch h), (fun _ _ _ _ _ h => nomatch h)⟩

section Steps
variable [DecidableEq σ]

namespace Db

@[simp] theorem setPhase_self (db : Db σ) (s : σ) (p : Phase) : (db.setPhase s p).phase s = p := if_pos rfl

theorem setPhase_ne (db : Db σ) {s s' : σ} (p : Phase) (h : s' ≠ s) :
    (db.setPhase s p).phase s' = db.phase s' := if_neg h

@[simp] theorem finish_tables (db : Db σ) (s : σ) (e : Entry σ) : (db.finish s e).tables = db.tables := by
  unfold finish
  cases (db.phase s).locked <;> rfl

@[simp] theorem finish_self (db : Db σ) (s : σ) (e : Entry σ) : (db.finish s e).phase s = .idle := by
  unfold finish
  cases (db.phase s).locked <;> exact if_pos rfl

theorem finish_ne (db : Db σ) {s s' : σ} (e : Entry σ) (h : s' ≠ s) :
    (db.finish s e).phase s' = db.phase s' := by
  unfold finish
  cases (db.phase s).locked <;> exact if_neg h

theorem finish_locks (db : Db σ) (s : σ) (e : Entry σ) {id : Integer}
    (h : (db.phase s).locked ≠ some id) : (db.finish s e).locks id = db.locks id := by
  unfold finish
  cases hl : (db.phase s).locked with
  | none => rfl
  | some id' =>
    have hne : id ≠ id' := by
      intro heq
      rw [hl, heq] at h
      exact h rfl
    exact if_neg hne

end Db

theorem locked_begin {p : Phase} (h : p.writing = none) (id : Integer) : p.locked ≠ some id := by
  rw [Phase.locked_eq, h, Option.map_none]
  exact nofun

/-- Moving a session to a phase in which it writes nothing, tables and locks untouched. -/
theorem Locks.setPhase {db : Db σ} (h : Locks db) (s : σ) {p : Phase} (hp : p.writing = none) :
    Locks (db.setPhase s p) := by
  refine h.transfer fun s' id hid => ?_
  by_cases hs : s' = s
  · subst hs
    rw [Db.setPhase_self] at hid
    exact absurd hid (locked_begin hp id)
  · exact ⟨Db.setPhase_ne db p hs, rfl, rfl⟩

/-- A finished session releases its own lock and no other. -/
theorem Locks.finish {db : Db σ} (h : Locks db) (s : σ) (e : Entry σ) {t : Tables}
    (ht : ∀ id, (db.phase s).locked ≠ some id → t.cliente id = db.tables.cliente id) :
    Locks {db.finish s e with tables := t} := by
  refine h.transfer fun s' id hid => ?_
  by_cases hs : s' = s
  · subst hs
    rw [show ({db.finish s' e with tables := t} : Db σ).phase s' = .idle from db.finish_self s' e] at hid
    cases hid
  · have hphase : (db.finish s e).phase s' = db.phase s' := db.finish_ne e hs
    have hother : (db.phase s).locked ≠ some id := by
      intro heq
      have h1 := h.held s id heq
      have h2 := h.held s' id (hphase ▸ hid)
      rw [h1] at h2
      exact hs (Option.some.inj h2).symm
    exact ⟨hphase, db.finish_locks s e hother, ht id hother⟩

theorem Locks.finish_same {db : Db σ} (h : Locks db) (s : σ) (e : Entry σ) : Locks (db.finish s e) := by
  have := h.finish s e (t := (db.finish s e).tables) (fun id _ => by rw [Db.finish_tables])
  exact this

/-! ### One step -/

/-- What a step does to what is committed and to what has been answered. -/
inductive Effect (db db' : Db σ) : Prop where
  /-- Nothing is committed and nobody is answered. -/
  | none (tables : db'.tables = db.tables) (history : db'.history = db.history)
  /-- A call ends without a value, and leaves nothing behind. -/
  | fails {s f a reply} (value : ∀ l n, reply ≠ .json l n) (tables : db'.tables = db.tables)
      (history : db'.history = db.history ++ [.pushed s f a reply])
  /-- A call commits its row of `transacoes` and its client's new saldo. -/
  | commits {s f a row r} (writing : Writing db.tables f a row) (records : Records f a r)
      (tables : db'.tables = db.tables.commit row r)
      (history : db'.history = db.history ++ [.pushed s f a (.json row.limite row.saldo)])
  /-- A `get_extrato` is answered from what is committed. -/
  | reads {s id now rows} (ordered : db.tables.Ordered id rows) (tables : db'.tables = db.tables)
      (history : db'.history = db.history ++ [.extrato s id db.tables (getExtrato db.tables id now rows)])
  | noExtrato {s id} (tables : db'.tables = db.tables)
      (history : db'.history = db.history ++ [.noExtrato s id])

theorem null_ne_json (l n : Integer) : Reply.null ≠ .json l n := nofun

theorem raised_ne_json (e : SqlError) (l n : Integer) : Reply.raised e ≠ .json l n := nofun

theorem handle_ne_json (f : Push) (e : SqlError) (l n : Integer) : f.handle e ≠ .json l n := by
  unfold Push.handle
  split
  · exact null_ne_json l n
  · exact raised_ne_json e l n

/-- The UPDATE of a call. -/
theorem update_effect {db db' : Db σ} {s : σ} (h : Locks db) (hs : db.update s = .ok db') :
    Locks db' ∧ Effect db db' := by
  unfold Db.update at hs
  split at hs
  · rename_i f a now hphase
    split at hs
    · cases hs
    · rename_i hfree
      split at hs
      · cases hs
        exact ⟨h.finish_same s _, .fails (handle_ne_json f _) (db.finish_tables s _) rfl⟩
      · cases hs
        exact ⟨h.finish_same s _, .fails null_ne_json (db.finish_tables s _) rfl⟩
      · rename_i row hrow
        cases hs
        obtain ⟨c, hc, hid, hlimite, hexpr⟩ := Tables.updateSaldo_some hrow
        refine ⟨⟨fun s' id hid' => ?_, fun s' f' a' row' hw => ?_, fun s' f' a' row' r hr => ?_⟩,
          .none rfl rfl⟩
        · by_cases hs' : s' = s
          · subst hs'
            rw [Db.setPhase_self] at hid'
            cases hid'
            exact if_pos rfl
          · rw [Db.setPhase_ne _ _ hs'] at hid'
            have hheld := h.held s' id hid'
            have hne : id ≠ a.cliente_id_in := by
              intro heq
              rw [heq, hfree] at hheld
              cases hheld
            exact (if_neg hne).trans hheld
        · by_cases hs' : s' = s
          · subst hs'
            rw [Db.setPhase_self] at hw
            cases hw
            exact ⟨c, hc, hid, hlimite, Push.expr_ok hexpr⟩
          · rw [Db.setPhase_ne _ _ hs'] at hw
            exact h.writing s' f' a' row' hw
        · by_cases hs' : s' = s
          · subst hs'
            rw [Db.setPhase_self] at hr
            cases hr
          · rw [Db.setPhase_ne _ _ hs'] at hr
            exact h.records s' f' a' row' r hr
  · cases hs

/-- The INSERT of a call. -/
theorem insert_effect {db db' : Db σ} {s : σ} (h : Locks db) (hs : db.insert s = .ok db') :
    Locks db' ∧ Effect db db' := by
  have hseq : ∀ n, Locks {db with seq := n} := fun n => h.transfer fun _ _ _ => ⟨rfl, rfl, rfl⟩
  unfold Db.insert at hs
  split at hs
  · rename_i f a now row hphase
    split at hs
    · cases hs
      exact ⟨(hseq _).finish_same s _, .fails (handle_ne_json f _) (Db.finish_tables _ s _) rfl⟩
    · rename_i r hr
      cases hs
      obtain ⟨hcliente, hvalor, htipo, hdescricao, _⟩ := Tables.insertTransacao_ok hr
      refine ⟨⟨fun s' id hid => ?_, fun s' f' a' row' hw => ?_, fun s' f' a' row' r' hr' => ?_⟩,
        .none rfl rfl⟩
      · by_cases hs' : s' = s
        · subst hs'
          rw [Db.setPhase_self] at hid
          exact h.held s' id (by rw [hphase]; exact hid)
        · rw [Db.setPhase_ne _ _ hs'] at hid
          exact h.held s' id hid
      · by_cases hs' : s' = s
        · subst hs'
          rw [Db.setPhase_self] at hw
          exact h.writing s' f' a' row' (by rw [hphase]; exact hw)
        · rw [Db.setPhase_ne _ _ hs'] at hw
          exact h.writing s' f' a' row' hw
      · by_cases hs' : s' = s
        · subst hs'
          rw [Db.setPhase_self] at hr'
          cases hr'
          exact ⟨hcliente, hvalor, htipo, hdescricao⟩
        · rw [Db.setPhase_ne _ _ hs'] at hr'
          exact h.records s' f' a' row' r' hr'
  · cases hs

/-- The commit of a call. -/
theorem commit_effect {db db' : Db σ} {s : σ} (h : Locks db) (hs : db.commit s = .ok db') :
    Locks db' ∧ Effect db db' := by
  unfold Db.commit at hs
  split at hs
  · rename_i f a row r hphase
    cases hs
    have hw : Writing db.tables f a row := h.writing s f a row (by rw [hphase]; rfl)
    refine ⟨h.finish s _ fun id hid => ?_, .commits hw (h.records s f a row r hphase) rfl rfl⟩
    obtain ⟨_, _, hrow, _⟩ := hw
    refine Tables.cliente_commit_other fun heq => hid ?_
    rw [hphase]
    show some a.cliente_id_in = some id
    rw [← heq, hrow]
  · cases hs

theorem begin_effect {db db' : Db σ} {s : σ} {p : Phase} (h : Locks db) (hp : p.writing = none)
    (hs : db.begin s p = .ok db') : Locks db' ∧ Effect db db' := by
  unfold Db.begin at hs
  split at hs
  · cases hs
    exact ⟨h.setPhase s hp, .none rfl rfl⟩
  · cases hs

theorem select_effect {db db' : Db σ} {s : σ} {rows : List Transacao} (h : Locks db)
    (hs : db.select s rows = .ok db') : Locks db' ∧ Effect db db' := by
  unfold Db.select at hs
  split at hs
  · split at hs
    · rename_i hordered
      cases hs
      exact ⟨h.finish_same s _, .reads hordered (db.finish_tables s _) rfl⟩
    · cases hs
  · cases hs

theorem cancel_effect {db db' : Db σ} {s : σ} (h : Locks db) (hs : db.cancel s = .ok db') :
    Locks db' ∧ Effect db db' := by
  unfold Db.cancel at hs
  cases hphase : db.phase s <;> rw [hphase] at hs
  case idle => cases hs
  case reading id now =>
    cases hs
    exact ⟨h.finish_same s _, .noExtrato (db.finish_tables s _) rfl⟩
  all_goals
    cases hs
    exact ⟨h.finish_same s _, .fails (raised_ne_json .canceled) (db.finish_tables s _) rfl⟩

/-- What any step of any session does. -/
theorem step_effect {db db' : Db σ} {act : Act σ} (h : Locks db) (hs : db.step act = .ok db') :
    Locks db' ∧ Effect db db' := by
  cases act with
  | tick =>
    cases hs
    exact ⟨h.transfer fun _ _ _ => ⟨rfl, rfl, rfl⟩, .none rfl rfl⟩
  | call s f a => exact begin_effect h rfl hs
  | callExtrato s id => exact begin_effect h rfl hs
  | update s => exact update_effect h hs
  | insert s => exact insert_effect h hs
  | commit s => exact commit_effect h hs
  | select s rows => exact select_effect h hs
  | cancel s => exact cancel_effect h hs

end Steps

/-! ### The books -/

/-- What the committed calls posted, in the order in which they committed. -/
def postings (history : List (Entry σ)) : List (Posting Integer Int) :=
  history.filterMap fun
    | .pushed _ f a (.json _ saldo) => some ⟨a.cliente_id_in, f.signed a.valor_in, saldo.val⟩
    | _ => none

theorem postings_append (history : List (Entry σ)) (e : Entry σ) :
    postings (history ++ [e]) = postings history ++ postings [e] := by
  simp [postings]

theorem postings_fails {reply : Reply} (h : ∀ l n, reply ≠ .json l n) (s : σ) (f : Push) (a : Args) :
    postings [.pushed s f a reply] = [] := by
  cases reply with
  | json l n => exact absurd rfl (h l n)
  | null => rfl
  | raised e => rfl

/-- The rows and the answers account for every saldo. -/
structure Books (db : Db σ) : Prop where
  rows : ∀ c ∈ db.tables.clientes, c.saldo.val = db.tables.movimento c.id
  answers : ∀ c ∈ db.tables.clientes, c.saldo.val = balance (postings db.history) c.id
  replied : Replied (postings db.history)

/-- The books depend on the tables and on what was posted alone. -/
theorem Books.of_same {db db' : Db σ} (h : Books db) (ht : db'.tables = db.tables)
    (hp : postings db'.history = postings db.history) : Books db' := by
  obtain ⟨hrows, hanswers, hreplied⟩ := h
  exact ⟨by rw [ht]; exact hrows, by rw [ht, hp]; exact hanswers, by rw [hp]; exact hreplied⟩

theorem movimento_commit {t : Tables} {f : Push} {a : Args} {row : Cliente} {r : Transacao}
    (h : Records f a r) (id : Integer) :
    (t.commit row r).movimento id =
      t.movimento id + if a.cliente_id_in = id then f.signed a.valor_in else 0 := by
  obtain ⟨hcliente, hvalor, htipo, _⟩ := h
  unfold Tables.movimento
  rw [Tables.soma_commit, Tables.soma_commit, hcliente, hvalor, htipo]
  cases f <;> by_cases hid : a.cliente_id_in = id <;> simp [hid, Push.tipo, Push.signed] <;> omega

theorem Books.commits {db db' : Db σ} (h : Books db) {s : σ} {f : Push} {a : Args} {row : Cliente}
    {r : Transacao} (hw : Writing db.tables f a row) (hr : Records f a r)
    (ht : db'.tables = db.tables.commit row r)
    (hh : db'.history = db.history ++ [.pushed s f a (.json row.limite row.saldo)]) : Books db' := by
  obtain ⟨c₀, hc₀, hid, _, hsaldo⟩ := hw
  obtain ⟨hmem, hc₀id⟩ := Tables.cliente_some hc₀
  have hpost : postings db'.history = postings db.history ++
      [⟨a.cliente_id_in, f.signed a.valor_in, row.saldo.val⟩] := by
    rw [hh, postings_append]
    rfl
  refine ⟨fun c hc => ?_, fun c hc => ?_, ?_⟩
  · rw [ht] at hc ⊢
    rw [movimento_commit hr]
    rcases Tables.mem_commit hc with rfl | ⟨hold, hne⟩
    · rw [if_pos hid.symm, hsaldo, h.rows c₀ hmem, hc₀id, hid]
    · rw [if_neg (fun heq => hne (heq.symm.trans hid.symm)), h.rows c hold, Int.add_zero]
  · rw [ht] at hc
    rw [hpost]
    rcases Tables.mem_commit hc with rfl | ⟨hold, hne⟩
    · rw [hid, show balance (postings db.history ++ _) a.cliente_id_in = _ from balance_self ..,
        hsaldo, h.answers c₀ hmem, hc₀id]
    · rw [balance_other _ _ (fun heq => hne (heq.symm.trans hid.symm)), h.answers c hold]
  · rw [hpost]
    refine .post h.replied ?_
    show row.saldo.val = balance _ a.cliente_id_in + f.signed a.valor_in
    rw [hsaldo, h.answers c₀ hmem, hc₀id]

theorem Books.step {db db' : Db σ} (h : Books db) (he : Effect db db') : Books db' := by
  cases he with
  | none ht hh => exact h.of_same ht (by rw [hh])
  | fails hv ht hh => exact h.of_same ht (by rw [hh, postings_append, postings_fails hv, List.append_nil])
  | commits hw hr ht hh => exact h.commits hw hr ht hh
  | reads _ ht hh => exact h.of_same ht (by rw [hh, postings_append]; exact List.append_nil _)
  | noExtrato ht hh => exact h.of_same ht (by rw [hh, postings_append]; exact List.append_nil _)

theorem books_seeded : Books (Db.seeded : Db σ) := by
  refine ⟨?_, ?_, .nil⟩ <;>
  · intro c hc
    simp only [Db.seeded, seeded, List.mem_cons, List.not_mem_nil, or_false] at hc
    rcases hc with rfl | rfl | rfl | rfl | rfl <;> rfl

section Run
variable [DecidableEq σ]

theorem sound_step {db db' : Db σ} {act : Act σ} (h : Locks db ∧ Books db)
    (hs : db.step act = .ok db') : Locks db' ∧ Books db' := by
  obtain ⟨hlocks, heffect⟩ := step_effect h.1 hs
  exact ⟨hlocks, h.2.step heffect⟩

/-- Locks and books through any interleaving. -/
theorem sound_run (acts : List (Act σ)) :
    Throughout Db.step (fun db => Locks db ∧ Books db) (Db.seeded : Db σ) acts :=
  throughout_of_all (fun _ _ _ => sound_step) ⟨locks_seeded, books_seeded⟩ acts

/-! ### The invariant of the tables -/

/-- Every saldo is the sum of the client's 'c' rows less that of its 'd' rows, and
is not below the limit. -/
def Balanced (t : Tables) : Prop :=
  ∀ c ∈ t.clientes, c.saldo.val = t.soma c.id 'c' - t.soma c.id 'd' ∧ -c.limite.val ≤ c.saldo.val

/-- One row of `transacoes` with the call's own values, and the call's client
with the saldo that was answered; nothing else. -/
structure Applied (t t' : Tables) (f : Push) (a : Args) (limite saldo : Integer) : Prop where
  row : ∃ r, t'.transacoes = t.transacoes ++ [r] ∧ Records f a r
  saldo : ∃ c c', t.cliente a.cliente_id_in = some c ∧ t'.cliente a.cliente_id_in = some c' ∧
    c'.limite = c.limite ∧ limite = c.limite ∧ c'.saldo = saldo ∧
    saldo.val = c.saldo.val + f.signed a.valor_in
  others : ∀ id, id ≠ a.cliente_id_in → t'.cliente id = t.cliente id

/-- A step that answers nobody changes no table; one that answers a call applies
the call if the answer has a value, and else changes no table. -/
def Accounted (db : Db σ) (act : Act σ) : Prop :=
  ∀ db', db.step act = .ok db' →
    (db'.history = db.history ∧ db'.tables = db.tables) ∨
      ∃ e, db'.history = db.history ++ [e] ∧
        match e with
        | .pushed _ f a (.json limite saldo) => Applied db.tables db'.tables f a limite saldo
        | _ => db'.tables = db.tables

theorem applied_commit {t : Tables} {f : Push} {a : Args} {row : Cliente} {r : Transacao}
    (hw : Writing t f a row) (hr : Records f a r) :
    Applied t (t.commit row r) f a row.limite row.saldo := by
  obtain ⟨c, hc, hid, hlimite, hsaldo⟩ := hw
  have hmem : row ∈ (t.commit row r).clientes := by
    obtain ⟨hmem, hcid⟩ := Tables.cliente_some hc
    exact List.mem_map.mpr ⟨c, hmem, if_pos (hcid.trans hid.symm)⟩
  refine ⟨⟨r, rfl, hr⟩, ⟨c, row, hc, ?_, hlimite, hlimite, rfl, hsaldo⟩, fun id hne => ?_⟩
  · rw [← hid]
    exact Tables.cliente_of_mem hmem
  · exact Tables.cliente_commit_other fun heq => hne (heq.symm.trans hid)

theorem accounted_of_locks {db : Db σ} (h : Locks db) (act : Act σ) : Accounted db act := by
  intro db' hs
  cases (step_effect h hs).2 with
  | none ht hh => exact .inl ⟨hh, ht⟩
  | @fails s f a reply hv ht hh =>
    refine .inr ⟨_, hh, ?_⟩
    cases reply with
    | json l n => exact absurd rfl (hv l n)
    | null => exact ht
    | raised e => exact ht
  | commits hw hr ht hh =>
    refine .inr ⟨_, hh, ?_⟩
    show Applied _ _ _ _ _ _
    rw [ht]
    exact applied_commit hw hr
  | reads _ ht hh => exact .inr ⟨_, hh, ht⟩
  | noExtrato ht hh => exact .inr ⟨_, hh, ht⟩

/-- **The ledger invariant**: through any interleaving of calls the committed
tables are balanced, and every step is accounted for. -/
theorem ledger_invariant (acts : List (Act σ)) :
    Throughout Db.step (fun db => Balanced db.tables) (Db.seeded : Db σ) acts ∧
      EachStep Db.step Accounted (Db.seeded : Db σ) acts := by
  constructor
  · refine (sound_run acts).mono fun db h c hc => ⟨h.2.rows c hc, c.check⟩
  · exact eachStep_of_all (fun _ _ _ h hs => ⟨sound_step h hs, accounted_of_locks h.1 _⟩)
      ⟨locks_seeded, books_seeded⟩ acts

end Run
end Rinha.Database
