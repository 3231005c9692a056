import Mathlib.Algebra.BigOperators.Group.List.Basic
import Mathlib.Algebra.Ring.Int.Defs
import Mathlib.Data.List.Nodup

/-! The tables of `init.pgsql` and the statements that change them.

An `Integer` is in PostgreSQL's INTEGER range and arithmetic that leaves the
range is an error; a row of `clientes` carries its CHECK; `Tables` carries its
primary key. So a statement either gives tables that meet the constraints or one
of the errors PostgreSQL raises. -/
namespace Rinha.Database

inductive SqlError where
  | numeric_value_out_of_range
  | check_violation
  | foreign_key_violation
  | not_null_violation
  | sequence_generator_limit_exceeded
  /-- A text that is none in the client's encoding. -/
  | character_not_in_repertoire
  /-- The transaction is cut off before its end: a lost connection, a cancel, a shutdown. -/
  | canceled
  deriving DecidableEq, Repr

/-! ### INTEGER and VARCHAR -/

structure Integer where
  val : Int
  lower : -2147483648 ≤ val
  upper : val ≤ 2147483647
  deriving DecidableEq, Repr

namespace Integer

@[ext] theorem ext {a b : Integer} (h : a.val = b.val) : a = b := by
  cases a; cases b; cases h; rfl

/-- A value computed for an INTEGER: out of range is an error. -/
def of (z : Int) : Except SqlError Integer :=
  if h : -2147483648 ≤ z ∧ z ≤ 2147483647 then .ok ⟨z, h.1, h.2⟩
  else .error .numeric_value_out_of_range

/-- A value in the range that is not negative. -/
def ofFin (n : Fin 2147483648) : Integer := ⟨n, by omega, by omega⟩

instance : @NeZero Nat Zero.ofOfNat0 2147483648 := ⟨by decide⟩

theorem of_ok {z : Int} {n : Integer} (h : of z = .ok n) : n.val = z := by
  unfold of at h
  split at h
  · cases h; rfl
  · cases h

def add (a b : Integer) : Except SqlError Integer := of (a.val + b.val)
def sub (a b : Integer) : Except SqlError Integer := of (a.val - b.val)
def neg (a : Integer) : Except SqlError Integer := of (-a.val)

end Integer

/-- A value of type `VARCHAR(n)`. -/
structure Varchar (n : Nat) where
  chars : List Char
  fits : chars.length ≤ n
  deriving DecidableEq, Repr

/-- The explicit cast `::varchar(n)` cuts a longer text. -/
def Varchar.cast (n : Nat) (text : List Char) : Varchar n :=
  ⟨text.take n, by rw [List.length_take]; exact Nat.min_le_left n _⟩

/-! ### Rows -/

/-- `clientes`: `saldo INTEGER NOT NULL CHECK(saldo >= -limite)` -/
structure Cliente where
  id : Integer
  limite : Integer
  saldo : Integer
  check : -limite.val ≤ saldo.val
  deriving DecidableEq, Repr

/-- `transacoes` -/
structure Transacao where
  id : Nat
  cliente_id : Integer
  valor : Integer
  tipo : Char
  descricao : Varchar 10
  realizada_em : Nat
  deriving DecidableEq, Repr

structure Tables where
  clientes : List Cliente
  transacoes : List Transacao
  /-- `id SERIAL PRIMARY KEY` -/
  key : (clientes.map Cliente.id).Nodup
  deriving DecidableEq

namespace Tables

def cliente (t : Tables) (id : Integer) : Option Cliente := t.clientes.find? fun c => c.id = id

theorem cliente_some {t : Tables} {id : Integer} {c : Cliente} (h : t.cliente id = some c) :
    c ∈ t.clientes ∧ c.id = id :=
  ⟨List.mem_of_find?_eq_some h, by simpa using List.find?_some h⟩

theorem cliente_of_mem {t : Tables} {c : Cliente} (h : c ∈ t.clientes) : t.cliente c.id = some c := by
  have hsome : (t.cliente c.id).isSome := by
    rw [cliente, List.find?_isSome]
    exact ⟨c, h, by simp⟩
  obtain ⟨d, hd⟩ := Option.isSome_iff_exists.mp hsome
  obtain ⟨hmem, hid⟩ := cliente_some hd
  rw [hd, List.inj_on_of_nodup_map t.key hmem h hid]

/-- The sum of `valor` over a client's rows of one `tipo`. -/
def soma (t : Tables) (id : Integer) (tipo : Char) : Int :=
  ((t.transacoes.filter fun r => r.cliente_id = id ∧ r.tipo = tipo).map fun r => r.valor.val).sum

/-- What a client's rows add up to: the 'c' rows less the 'd' rows. -/
def movimento (t : Tables) (id : Integer) : Int := t.soma id 'c' - t.soma id 'd'

end Tables

/-! ### Statements -/

/-- The new version of a row, whose CHECK is evaluated in INTEGER arithmetic. -/
def Cliente.setSaldo (c : Cliente) (saldo : Integer) : Except SqlError Cliente :=
  match c.limite.neg with
  | .error e => .error e
  | .ok _ =>
    if h : -c.limite.val ≤ saldo.val then .ok ⟨c.id, c.limite, saldo, h⟩ else .error .check_violation

theorem Cliente.setSaldo_ok {c c' : Cliente} {saldo : Integer} (h : c.setSaldo saldo = .ok c') :
    c'.id = c.id ∧ c'.limite = c.limite ∧ c'.saldo = saldo := by
  unfold Cliente.setSaldo at h
  split at h
  · cases h
  · split at h
    · cases h; exact ⟨rfl, rfl, rfl⟩
    · cases h

namespace Tables

/-- `UPDATE clientes SET saldo = ... WHERE id = cliente_id_in RETURNING limite, saldo`:
the new version of the row, or nothing when no row has the id. -/
def updateSaldo (t : Tables) (expr : Integer → Except SqlError Integer) (cliente_id_in : Integer) :
    Except SqlError (Option Cliente) :=
  match t.cliente cliente_id_in with
  | none => .ok none
  | some c =>
    match expr c.saldo with
    | .error e => .error e
    | .ok saldo =>
      match c.setSaldo saldo with
      | .error e => .error e
      | .ok row => .ok (some row)

/-- The UPDATE touches the saldo of the one row with the id, and nothing else of it. -/
theorem updateSaldo_some {t : Tables} {expr : Integer → Except SqlError Integer} {id : Integer}
    {row : Cliente} (h : t.updateSaldo expr id = .ok (some row)) :
    ∃ c, t.cliente id = some c ∧ row.id = id ∧ row.limite = c.limite ∧ expr c.saldo = .ok row.saldo := by
  unfold updateSaldo at h
  split at h
  · cases h
  · rename_i c hc
    split at h
    · cases h
    · rename_i saldo hs
      split at h
      · cases h
      · rename_i row' hrow
        cases h
        obtain ⟨hid, hlimite, hsaldo⟩ := Cliente.setSaldo_ok hrow
        exact ⟨c, hc, hid.trans (cliente_some hc).2, hlimite, by rw [hsaldo]; exact hs⟩

/-- `INSERT INTO transacoes(cliente_id, valor, tipo, descricao) VALUES (...)`: the
row, with the next id of the sequence and the transaction's `NOW()`. -/
def insertTransacao (t : Tables) (seq now : Nat) (cliente_id_in valor_in : Integer) (tipo : Char)
    (descricao_in : Option (Varchar 10)) : Except SqlError Transacao :=
  if 2147483647 ≤ seq then .error .sequence_generator_limit_exceeded
  else
    match descricao_in with
    | none => .error .not_null_violation
    | some descricao =>
      if (t.cliente cliente_id_in).isNone then .error .foreign_key_violation
      else .ok ⟨seq + 1, cliente_id_in, valor_in, tipo, descricao, now⟩

theorem insertTransacao_ok {t : Tables} {seq now : Nat} {id valor : Integer} {tipo : Char}
    {descricao : Option (Varchar 10)} {r : Transacao}
    (h : t.insertTransacao seq now id valor tipo descricao = .ok r) :
    r.cliente_id = id ∧ r.valor = valor ∧ r.tipo = tipo ∧ descricao = some r.descricao ∧
      r.realizada_em = now := by
  unfold insertTransacao at h
  split at h
  · cases h
  · split at h
    · cases h
    · split at h
      · cases h
      · cases h; exact ⟨rfl, rfl, rfl, rfl, rfl⟩

/-- The clients with one row put in the place of the row with its id. -/
def put (clientes : List Cliente) (row : Cliente) : List Cliente :=
  clientes.map fun c => if c.id = row.id then row else c

theorem put_ids (clientes : List Cliente) (row : Cliente) :
    (put clientes row).map Cliente.id = clientes.map Cliente.id := by
  rw [put, List.map_map]
  refine List.map_congr_left fun c _ => ?_
  show (if c.id = row.id then row else c).id = c.id
  split
  · rename_i h; exact h.symm
  · rfl

/-- What a transaction that updated one client and inserted one row commits. -/
def commit (t : Tables) (row : Cliente) (r : Transacao) : Tables :=
  ⟨put t.clientes row, t.transacoes ++ [r], by rw [put_ids]; exact t.key⟩

theorem mem_commit {t : Tables} {row : Cliente} {r : Transacao} {c : Cliente}
    (h : c ∈ (t.commit row r).clientes) : c = row ∨ c ∈ t.clientes ∧ c.id ≠ row.id := by
  obtain ⟨d, hd, heq⟩ := List.mem_map.mp h
  split at heq
  · exact .inl heq.symm
  · rename_i hne
    subst heq
    exact .inr ⟨hd, hne⟩

/-- Other clients' rows are as they were. -/
theorem cliente_commit_other {t : Tables} {row : Cliente} {r : Transacao} {id : Integer}
    (h : row.id ≠ id) : (t.commit row r).cliente id = t.cliente id := by
  have hfind : ∀ cs : List Cliente,
      (put cs row).find? (fun c => c.id = id) = cs.find? (fun c => c.id = id) := by
    intro cs
    induction cs with
    | nil => rfl
    | cons c rest ih =>
      unfold put at ih ⊢
      rw [List.map_cons, List.find?_cons, List.find?_cons, ih]
      by_cases hc : c.id = row.id
      · simp [hc, h]
      · simp [hc]
  exact hfind t.clientes

theorem soma_commit (t : Tables) (row : Cliente) (r : Transacao) (id : Integer) (tipo : Char) :
    (t.commit row r).soma id tipo =
      t.soma id tipo + if r.cliente_id = id ∧ r.tipo = tipo then r.valor.val else 0 := by
  unfold soma commit
  simp only [List.filter_append, List.map_append, List.sum_append]
  by_cases h : r.cliente_id = id ∧ r.tipo = tipo <;> simp [h]

end Tables

/-! ### The seeded tables -/

/-- `INSERT INTO clientes (limite, saldo) VALUES ...`, which numbers the clients from 1. -/
def seeded : Tables where
  clientes :=
    [⟨⟨1, by decide, by decide⟩, ⟨1000 * 100, by decide, by decide⟩, ⟨0, by decide, by decide⟩, by decide⟩,
     ⟨⟨2, by decide, by decide⟩, ⟨800 * 100, by decide, by decide⟩, ⟨0, by decide, by decide⟩, by decide⟩,
     ⟨⟨3, by decide, by decide⟩, ⟨10000 * 100, by decide, by decide⟩, ⟨0, by decide, by decide⟩, by decide⟩,
     ⟨⟨4, by decide, by decide⟩, ⟨100000 * 100, by decide, by decide⟩, ⟨0, by decide, by decide⟩, by decide⟩,
     ⟨⟨5, by decide, by decide⟩, ⟨5000 * 100, by decide, by decide⟩, ⟨0, by decide, by decide⟩, by decide⟩]
  transacoes := []
  key := by decide

end Rinha.Database
