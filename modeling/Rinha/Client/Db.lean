import Rinha.Request.Transacao

/-! `db.c`, and what it uses of libpq.

A connection is idle or has one command in progress, with the results of it that
have not been taken yet. While it has, another command is refused; `PQgetResult`
gives the results in turn and then NULL, with which the connection is idle. What
the server and the network do (whether a command can be sent, what its results
are, how the waiting goes) is an argument. -/
namespace Rinha.Client
open Library Request

/-! ### Commands -/

/-- The commands that `db.c` builds. -/
inductive Query where
  | getExtrato (id : Nat)
  | pushCredito (id : Nat) (valor : Int) (descricao : List UInt8)
  | pushDebito (id : Nat) (valor : Int) (descricao : List UInt8)
  deriving DecidableEq, Repr

/-- `snprintf` into a buffer of this size, which keeps room for the NUL. -/
def snprintf (size : Nat) (text : List UInt8) : List UInt8 := text.take (size - 1) ++ [0]

/-- `command_buffer` -/
def Query.command : Query → List UInt8
  | getExtrato id => snprintf 50 (bytes "SELECT get_extrato(" ++ decimal id ++ bytes "::int)")
  | pushCredito id valor _ =>
    snprintf 100 (bytes "SELECT push_credito(" ++ decimal id ++ bytes "::int, " ++ decimalInt valor ++
      bytes "::int, $1::varchar(10))")
  | pushDebito id valor _ =>
    snprintf 100 (bytes "SELECT push_debito(" ++ decimal id ++ bytes "::int, " ++ decimalInt valor ++
      bytes "::int, $1::varchar(10))")

/-! ### Connections -/

structure PGresult where
  /-- The status is `PGRES_TUPLES_OK`. -/
  tuplesOk : Bool
  ntuples : Nat
  nfields : Nat
  /-- The value in row 0 and column 0; NULL is `none`. -/
  value : Option (List UInt8)
  /-- `PQgetisnull` is 1 for a row or a column the result has not got. -/
  inside : value.isSome → 0 < ntuples ∧ 0 < nfields
  deriving DecidableEq

structure Command where
  /-- Which of the commands sent this is. -/
  tag : Nat
  query : Query
  results : List PGresult
  deriving DecidableEq

/-- The command in progress. -/
abbrev PGconn := Option Command

/-- What becomes of a command on an idle connection. -/
structure Sending where
  tag : Nat
  /-- It was dispatched. -/
  sent : Bool
  results : List PGresult

/-- `PQsendQuery` and `PQsendQueryParams` -/
def pqSendQuery (o : Sending) (query : Query) (conn : PGconn) : Int × PGconn :=
  match conn with
  | some command => (0, some command)
  | none => if o.sent then (1, some ⟨o.tag, query, o.results⟩) else (0, none)

def pqGetResult (conn : PGconn) : Option PGresult × PGconn :=
  match conn with
  | none => (none, none)
  | some ⟨tag, query, res :: rest⟩ => (some res, some ⟨tag, query, rest⟩)
  | some ⟨_, _, []⟩ => (none, none)

/-- What ends a run without the program having a next step. -/
inductive Fault where
  /-- `exit(1)` of a `FATAL` -/
  | fatal
  /-- A read through a NULL pointer, or a call of one. -/
  | null
  /-- A read past the end of an array. -/
  | overread
  /-- Waiting for the database goes on for ever. -/
  | blocked
  deriving DecidableEq, Repr

/-- What `PQconsumeInput` and then `PQisBusy` give. -/
structure Poll where
  consumeInput : Int
  isBusy : Bool
  deriving DecidableEq, Repr

/-- `wait_db`, for what each turn of its loop finds. -/
def waitDb : List Poll → Except Fault Int
  | [] => .error .blocked
  | p :: rest => if p.consumeInput ≠ 1 then .ok (-1) else if p.isBusy then waitDb rest else .ok 0

/-- The loop of `clear_dbconn` over the results that are left. -/
def clearResults (tag : Nat) (query : Query) : List PGresult → PGconn
  | [] => (pqGetResult (some ⟨tag, query, []⟩)).2
  | _ :: rest => clearResults tag query rest

def clearDbconn : PGconn → PGconn
  | none => (pqGetResult none).2
  | some ⟨tag, query, results⟩ => clearResults tag query results

@[simp] theorem clearDbconn_idle (conn : PGconn) : clearDbconn conn = none := by
  cases conn with
  | none => rfl
  | some command =>
    obtain ⟨tag, query, results⟩ := command
    rw [clearDbconn]
    induction results with
    | nil => rfl
    | cons _ rest ih => exact ih

/-! ### Results -/

/-- `TRANSACAO_INVALID` -/
def transacaoInvalid : Int := -1

/-- `TRANSACAO_DB_ERROR` -/
def transacaoDbError : Int := -2

/-- The two readers of a result: what is copied to the buffer and how much of it
there is, or a code for a NULL value or for any other failure. -/
def dbGetResult (isNull failed : Int) (res : Option PGresult) (bufferSize : Nat) (buffer : List UInt8) :
    Int × List UInt8 :=
  match res with
  | none => (failed, buffer)
  | some res =>
    if !res.tuplesOk then (failed, buffer)
    else
      match res.value with
      | none => (isNull, buffer)
      | some value =>
        if res.ntuples ≠ 1 then (failed, buffer)
        else if res.nfields ≠ 1 then (failed, buffer)
        else
          let nwrite := min (cstr value).length bufferSize
          (nwrite, memcpy buffer ((cstr value).take nwrite))

def dbGetResultTransacao := dbGetResult transacaoInvalid transacaoDbError

def dbGetResultExtrato := dbGetResult (-1) (-1)

/-! ### The asynchronous functions -/

/-- Both starts: the command is sent, and only a negative result is a failure. -/
def dbStart (query : Query) (o : Sending) (conn : PGconn) : Int × PGconn :=
  let (ret, conn) := pqSendQuery o query conn
  (if ret < 0 then -1 else 0, conn)

def dbStartExtrato (id : Nat) : Sending → PGconn → Int × PGconn := dbStart (.getExtrato id)

/-- The command for a transaction. `descricao` is passed as a C string: of an array
without a NUL the padding behind it, which is zero, ends it. -/
def Query.ofTransacao (t : Transacao) : Query :=
  if t.tipo = 99 then .pushCredito t.id t.valor (cstr t.descricao)
  else .pushDebito t.id t.valor (cstr t.descricao)

def dbStartTransacao (t : Transacao) : Sending → PGconn → Int × PGconn := dbStart (.ofTransacao t)

/-- Both ends: wait, read the one result and clear the connection. -/
def dbEnd (getResult : Option PGresult → Nat → List UInt8 → Int × List UInt8) (polls : List Poll)
    (bufferSize : Nat) (buffer : List UInt8) (conn : PGconn) :
    Except Fault (Int × List UInt8 × PGconn) :=
  match waitDb polls with
  | .error f => .error f
  | .ok ret =>
    if ret < 0 then .ok (-1, buffer, conn)
    else
      let (res, conn) := pqGetResult conn
      let (nwrite, buffer) := getResult res bufferSize buffer
      .ok (nwrite, buffer, clearDbconn conn)

def dbEndExtrato := dbEnd dbGetResultExtrato

def dbEndTransacao := dbEnd dbGetResultTransacao

/-! ### What the functions do to a connection -/

theorem dbStart_nonneg (query : Query) (o : Sending) (conn : PGconn) : ¬ (dbStart query o conn).1 < 0 := by
  unfold dbStart pqSendQuery
  cases conn with
  | some command => simp
  | none => cases o.sent <;> simp

/-- A command is sent to an idle connection only. -/
theorem dbStart_conn (query : Query) (o : Sending) (conn : PGconn) :
    (dbStart query o conn).2 =
      if conn.isNone ∧ o.sent then some ⟨o.tag, query, o.results⟩ else conn := by
  unfold dbStart pqSendQuery
  cases conn with
  | some command => simp
  | none => cases o.sent <;> simp

/-- The wait fails or succeeds, when it ends. -/
theorem waitDb_cases {polls : List Poll} {ret : Int} (h : waitDb polls = .ok ret) : ret = -1 ∨ ret = 0 := by
  induction polls with
  | nil => cases h
  | cons p rest ih =>
    rw [waitDb] at h
    split at h
    · cases h
      exact .inl rfl
    · split at h
      · exact ih h
      · cases h
        exact .inr rfl

/-- It only fails to end. -/
theorem waitDb_error {polls : List Poll} {f : Fault} (h : waitDb polls = .error f) : f = .blocked := by
  induction polls with
  | nil =>
    cases h
    rfl
  | cons p rest ih =>
    rw [waitDb] at h
    split at h
    · cases h
    · split at h
      · exact ih h
      · cases h

end Rinha.Client
