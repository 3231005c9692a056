import Rinha.Client.Db
import Rinha.Database.Ledger

/-! The commands of `db.c`, as calls of the functions of `init.pgsql`.

A command first casts its arguments: numbers to INTEGER, which fails out of
range, and the description, which has to be a text in the client's encoding
(`decode`), to VARCHAR(10). The result of the call is one row with one column;
a call that is not made, or that raises, has a result with an error status. The
text of an extrato is PostgreSQL's to choose (`extratoJson`). -/
namespace Rinha.Database
open Library Client

inductive SqlCall where
  | push (f : Push) (a : Args)
  | extrato (cliente_id_in : Integer)
  deriving DecidableEq, Repr

section Commands
variable (decode : List UInt8 → Option (List Char))

/-- `SELECT push_...(id::int, valor::int, $1::varchar(10))` -/
def castPush (f : Push) (id : Nat) (valor : Int) (descricao : List UInt8) : Except SqlError SqlCall :=
  match decode descricao with
  | none => .error .character_not_in_repertoire
  | some chars =>
    match Integer.of id with
    | .error e => .error e
    | .ok cliente_id_in =>
      match Integer.of valor with
      | .error e => .error e
      | .ok valor_in => .ok (.push f ⟨cliente_id_in, valor_in, some (Varchar.cast 10 chars)⟩)

def call : Query → Except SqlError SqlCall
  | .getExtrato id =>
    match Integer.of id with
    | .error e => .error e
    | .ok cliente_id_in => .ok (.extrato cliente_id_in)
  | .pushCredito id valor descricao => castPush decode .pushCredito id valor descricao
  | .pushDebito id valor descricao => castPush decode .pushDebito id valor descricao

end Commands

/-! ### Results -/

def raised : PGresult := ⟨false, 0, 0, none, nofun⟩

/-- The one row and column of a `SELECT` of a function. -/
def oneValue (value : Option (List UInt8)) : PGresult := ⟨true, 1, 1, value, fun _ => ⟨Nat.one_pos, Nat.one_pos⟩⟩

/-- `to_json(rw)` -/
def rowJson (limite saldo : Integer) : List UInt8 :=
  bytes "\x7b\"limite\":" ++ decimalInt limite.val ++ bytes ",\"saldo\":" ++ decimalInt saldo.val ++
    bytes "\x7d"

def Reply.result : Reply → PGresult
  | json limite saldo => oneValue (some (rowJson limite saldo))
  | null => oneValue none
  | raised _ => Database.raised

theorem Integer.decimal_length (n : Integer) : (decimalInt n.val).length ≤ 11 := by
  have := n.lower
  have := n.upper
  exact decimalInt_length (k := 10) (by decide) (by omega)

/-- The text is shorter than the buffer of 50 it is copied to. -/
theorem rowJson_length (limite saldo : Integer) : (rowJson limite saldo).length < 50 := by
  have hlimite := limite.decimal_length
  have hsaldo := saldo.decimal_length
  have h1 : (bytes "\x7b\"limite\":").length = 10 := by decide
  have h2 : (bytes ",\"saldo\":").length = 9 := by decide
  have h3 : (bytes "\x7d").length = 1 := by decide
  unfold rowJson
  simp only [List.length_append]
  omega

section Answers
variable {σ : Type*} (decode : List UInt8 → Option (List Char)) (extratoJson : Extrato → List UInt8)

/-- `res` is the result of the command at the end of a run of the database: of a
call of its that is in the history and was not cut off. -/
def Answers (db : Db σ) (query : Query) (res : PGresult) : Prop :=
  match call decode query with
  | .error _ => res = raised
  | .ok (.push f a) => ∃ s reply, .pushed s f a reply ∈ db.history ∧ reply ≠ .raised .canceled ∧
      res = reply.result
  | .ok (.extrato id) => ∃ s snapshot reply, .extrato s id snapshot reply ∈ db.history ∧
      res = oneValue (some (extratoJson reply))

end Answers

/-! ### The clients -/

section Clients
variable {σ : Type*} [DecidableEq σ]

/-- No step adds a client or takes one away. -/
theorem step_ids {db db' : Db σ} {act : Act σ} (h : Locks db) (hs : db.step act = .ok db') :
    db'.tables.clientes.map Cliente.id = db.tables.clientes.map Cliente.id := by
  cases (step_effect h hs).2 with
  | none ht => rw [ht]
  | fails _ ht => rw [ht]
  | commits _ _ ht =>
    rw [ht]
    exact Tables.put_ids _ _
  | reads _ ht => rw [ht]
  | noExtrato ht => rw [ht]

/-- The clients are 1 to 5 in every state. -/
theorem ids_run (acts : List (Act σ)) :
    Throughout Db.step (fun db => db.tables.clientes.map Cliente.id = seeded.clientes.map Cliente.id)
      (Db.seeded : Db σ) acts := by
  have hrun : Throughout Db.step (fun db => Locks db ∧
      db.tables.clientes.map Cliente.id = seeded.clientes.map Cliente.id) (Db.seeded : Db σ) acts :=
    throughout_of_all (fun _ _ _ h hs => ⟨(step_effect h.1 hs).1, (step_ids h.1 hs).trans h.2⟩)
      ⟨locks_seeded, rfl⟩ acts
  exact hrun.mono fun _ h => h.2

/-- There is a row with this id. -/
def Tables.HasCliente (t : Tables) (id : Nat) : Prop := ∃ c ∈ t.clientes, c.id.val = id

theorem hasCliente_iff {t : Tables} (h : t.clientes.map Cliente.id = seeded.clientes.map Cliente.id)
    (id : Nat) : t.HasCliente id ↔ 1 ≤ id ∧ id ≤ 5 := by
  have hmem : t.HasCliente id ↔ (id : Int) ∈ (t.clientes.map Cliente.id).map Integer.val := by
    simp only [Tables.HasCliente, List.map_map, List.mem_map, Function.comp_apply]
  have hids : (seeded.clientes.map Cliente.id).map Integer.val = [1, 2, 3, 4, 5] := by decide
  rw [hmem, h, hids]
  simp only [List.mem_cons, List.not_mem_nil, or_false]
  omega

end Clients
end Rinha.Database
