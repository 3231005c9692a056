import Rinha.Database.Tables
import Rinha.Library.Runs

/-! Calls of the functions of `init.pgsql`, interleaved statement by statement.

Each session runs one call at a time, a READ COMMITTED transaction. A call of
`push_credito` or `push_debito` begins (fixing `NOW()`), runs its UPDATE, runs
its INSERT and commits; the UPDATE takes the lock of the row it changes, waits
while another session has it, and works on the committed version; the lock goes
with the transaction. A call of `get_extrato` begins and runs its one SELECT, on
one snapshot of what is committed. A call may be cut off before any of its steps.

`history` is what the calls returned, in the order in which they took effect: with
the commit, with the snapshot, or where a call was refused or failed. The way from
there to the caller is no step of its own. -/
namespace Rinha.Database

/-! ### The two functions that change the tables -/

inductive Push where
  | pushCredito
  | pushDebito
  deriving DecidableEq, Repr

structure Args where
  cliente_id_in : Integer
  valor_in : Integer
  /-- NULL is `none`. PostgreSQL drops the length of a parameter's type; it is the
  commands that cast to `varchar(10)`. -/
  descricao_in : Option (Varchar 10)
  deriving DecidableEq, Repr

namespace Push

/-- `saldo + valor_in` and `saldo - valor_in` -/
def expr : Push → Integer → Integer → Except SqlError Integer
  | pushCredito, valor_in, saldo => saldo.add valor_in
  | pushDebito, valor_in, saldo => saldo.sub valor_in

def tipo : Push → Char
  | pushCredito => 'c'
  | pushDebito => 'd'

/-- `EXCEPTION WHEN check_violation THEN RETURN NULL`, which only `push_debito` has. -/
def catches : Push → SqlError → Bool
  | pushCredito, _ => false
  | pushDebito, e => e = .check_violation

/-- What the call adds to the saldo. -/
def signed (f : Push) (valor : Integer) : Int :=
  match f with
  | pushCredito => valor.val
  | pushDebito => -valor.val

theorem expr_ok {f : Push} {valor saldo n : Integer} (h : f.expr valor saldo = .ok n) :
    n.val = saldo.val + f.signed valor := by
  cases f with
  | pushCredito => exact Integer.of_ok h
  | pushDebito =>
    have := Integer.of_ok h
    simp only [signed]
    omega

end Push

/-- What a call of `push_credito` or `push_debito` returns. -/
inductive Reply where
  /-- `to_json(rw)`: limite and saldo of the updated row. -/
  | json (limite saldo : Integer)
  | null
  | raised (e : SqlError)
  deriving DecidableEq, Repr

/-- What becomes of an error inside the function. -/
def Push.handle (f : Push) (e : SqlError) : Reply := if f.catches e then .null else .raised e

/-! ### get_extrato -/

structure Saldo where
  total : Integer
  data_extrato : Nat
  limite : Integer
  deriving DecidableEq, Repr

structure Extrato where
  /-- The subquery over `clientes` is NULL when it finds no row. -/
  saldo : Option Saldo
  ultimas_transacoes : List Transacao
  deriving DecidableEq, Repr

def Tables.transacoesDe (t : Tables) (id : Integer) : List Transacao :=
  t.transacoes.filter fun r => r.cliente_id = id

/-- `ORDER BY realizada_em DESC` gives the client's rows in some order that falls
in time; rows of one time come in any order. -/
def Tables.Ordered (t : Tables) (id : Integer) (rows : List Transacao) : Prop :=
  rows.Perm (t.transacoesDe id) ∧ rows.Pairwise fun r r' => r'.realizada_em ≤ r.realizada_em

instance (t : Tables) (id : Integer) (rows : List Transacao) : Decidable (t.Ordered id rows) :=
  inferInstanceAs (Decidable (_ ∧ _))

/-- The SELECT of `get_extrato`, for the order the sort came out with. -/
def getExtrato (t : Tables) (cliente_id_in : Integer) (now : Nat) (rows : List Transacao) : Extrato where
  saldo := (t.cliente cliente_id_in).map fun c => ⟨c.saldo, now, c.limite⟩
  ultimas_transacoes := rows.take 10

/-! ### Sessions -/

inductive Phase where
  | idle
  /-- Called, at this `NOW()`: the UPDATE is next. -/
  | called (f : Push) (a : Args) (now : Nat)
  /-- Updated to `row`, whose lock it has: the INSERT is next. -/
  | updated (f : Push) (a : Args) (now : Nat) (row : Cliente)
  /-- Inserted: returning `row`'s columns and committing is next. -/
  | inserted (f : Push) (a : Args) (row : Cliente) (r : Transacao)
  /-- `get_extrato` was called: its SELECT is next. -/
  | reading (cliente_id_in : Integer) (now : Nat)
  deriving DecidableEq, Repr

/-- The row whose lock a session in this phase has. -/
def Phase.locked : Phase → Option Integer
  | updated _ a _ _ => some a.cliente_id_in
  | inserted _ a _ _ => some a.cliente_id_in
  | _ => none

inductive Entry (σ : Type*) where
  | pushed (session : σ) (f : Push) (a : Args) (reply : Reply)
  | extrato (session : σ) (cliente_id_in : Integer) (snapshot : Tables) (reply : Extrato)
  /-- A `get_extrato` that was cut off. -/
  | noExtrato (session : σ) (cliente_id_in : Integer)
  deriving DecidableEq

structure Db (σ : Type*) where
  /-- What is committed. -/
  tables : Tables
  /-- The last id `transacoes_id_seq` gave out; it is not rolled back. -/
  seq : Nat
  clock : Nat
  locks : Integer → Option σ
  phase : σ → Phase
  history : List (Entry σ)

inductive Act (σ : Type*) where
  | tick
  | call (session : σ) (f : Push) (a : Args)
  | callExtrato (session : σ) (cliente_id_in : Integer)
  | update (session : σ)
  | insert (session : σ)
  | commit (session : σ)
  | select (session : σ) (rows : List Transacao)
  | cancel (session : σ)

inductive Blocked where
  /-- The session's next step is another one. -/
  | notNext
  /-- The row is locked by another session: the UPDATE waits. -/
  | locked
  deriving DecidableEq, Repr

namespace Db
variable {σ : Type*} [DecidableEq σ]

def seeded : Db σ := ⟨Database.seeded, 0, 0, fun _ => none, fun _ => .idle, []⟩

def setPhase (db : Db σ) (s : σ) (p : Phase) : Db σ :=
  {db with phase := fun s' => if s' = s then p else db.phase s'}

def lock (db : Db σ) (id : Integer) (s : σ) : Db σ :=
  {db with locks := fun id' => if id' = id then some s else db.locks id'}

def unlock (db : Db σ) (id : Integer) : Db σ :=
  {db with locks := fun id' => if id' = id then none else db.locks id'}

/-- The transaction is over: its lock, if it has one, is released, and its
caller gets the reply. -/
def finish (db : Db σ) (s : σ) (e : Entry σ) : Db σ :=
  let db' := match (db.phase s).locked with
    | some id => db.unlock id
    | none => db
  {db'.setPhase s .idle with history := db.history ++ [e]}

def begin (db : Db σ) (s : σ) (p : Phase) : Except Blocked (Db σ) :=
  match db.phase s with
  | .idle => .ok (db.setPhase s p)
  | _ => .error .notNext

def update (db : Db σ) (s : σ) : Except Blocked (Db σ) :=
  match db.phase s with
  | .called f a now =>
    match db.locks a.cliente_id_in with
    | some _ => .error .locked
    | none =>
      match db.tables.updateSaldo (f.expr a.valor_in) a.cliente_id_in with
      | .error e => .ok (db.finish s (.pushed s f a (f.handle e)))
      -- IF NOT FOUND THEN RETURN NULL
      | .ok none => .ok (db.finish s (.pushed s f a .null))
      | .ok (some row) => .ok ((db.lock a.cliente_id_in s).setPhase s (.updated f a now row))
  | _ => .error .notNext

def insert (db : Db σ) (s : σ) : Except Blocked (Db σ) :=
  match db.phase s with
  | .updated f a now row =>
    match db.tables.insertTransacao db.seq now a.cliente_id_in a.valor_in f.tipo a.descricao_in with
    | .error e => .ok ({db with seq := min (db.seq + 1) 2147483647}.finish s (.pushed s f a (f.handle e)))
    | .ok r => .ok ({db with seq := db.seq + 1}.setPhase s (.inserted f a row r))
  | _ => .error .notNext

def commit (db : Db σ) (s : σ) : Except Blocked (Db σ) :=
  match db.phase s with
  | .inserted f a row r =>
    .ok {db.finish s (.pushed s f a (.json row.limite row.saldo)) with tables := db.tables.commit row r}
  | _ => .error .notNext

/-- The snapshot is taken and read, and the reply is what it shows, whatever commits
before the caller has it. -/
def select (db : Db σ) (s : σ) (rows : List Transacao) : Except Blocked (Db σ) :=
  match db.phase s with
  | .reading id now =>
    if db.tables.Ordered id rows then
      .ok (db.finish s (.extrato s id db.tables (getExtrato db.tables id now rows)))
    else .error .notNext
  | _ => .error .notNext

def cancel (db : Db σ) (s : σ) : Except Blocked (Db σ) :=
  match db.phase s with
  | .idle => .error .notNext
  | .called f a _ => .ok (db.finish s (.pushed s f a (.raised .canceled)))
  | .updated f a _ _ => .ok (db.finish s (.pushed s f a (.raised .canceled)))
  | .inserted f a _ _ => .ok (db.finish s (.pushed s f a (.raised .canceled)))
  | .reading id _ => .ok (db.finish s (.noExtrato s id))

def step (db : Db σ) : Act σ → Except Blocked (Db σ)
  | .tick => .ok {db with clock := db.clock + 1}
  | .call s f a => db.begin s (.called f a db.clock)
  | .callExtrato s id => db.begin s (.reading id db.clock)
  | .update s => db.update s
  | .insert s => db.insert s
  | .commit s => db.commit s
  | .select s rows => db.select s rows
  | .cancel s => db.cancel s

end Db
end Rinha.Database
