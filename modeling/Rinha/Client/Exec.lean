import Rinha.Client.Db

/-! The synchronous functions of `db.c`, and what their reader makes of a result.

`PQexec` and `PQexecParams` discard what is left of an earlier command, send
theirs, and give the last of its results; a command that cannot be sent gives
none. -/
namespace Rinha.Client
open Library Request

/-- `PQexec` and `PQexecParams`: the result, and the connection, which is idle. -/
def pqExec (o : Sending) (query : Query) (conn : PGconn) : Option PGresult × PGconn :=
  let (ret, conn) := pqSendQuery o query (clearDbconn conn)
  if ret = 0 then (none, conn)
  else (conn.bind fun command => command.results.getLast?, clearDbconn conn)

/-- Both functions: the command is executed, its result read and the connection cleared. -/
def dbExec (getResult : Option PGresult → Nat → List UInt8 → Int × List UInt8) (query : Query) (o : Sending)
    (bufferSize : Nat) (buffer : List UInt8) (conn : PGconn) : Int × List UInt8 × PGconn :=
  let (res, conn) := pqExec o query conn
  let (nwrite, buffer) := getResult res bufferSize buffer
  (nwrite, buffer, clearDbconn conn)

def dbPushTransacao (t : Transacao) := dbExec dbGetResultTransacao (.ofTransacao t)

def dbGetExtrato (id : Nat) := dbExec dbGetResultExtrato (.getExtrato id)

/-- The result that `PQexec` gives. -/
def lastResult (o : Sending) : Option PGresult := if o.sent then o.results.getLast? else none

theorem dbExec_eq (getResult : Option PGresult → Nat → List UInt8 → Int × List UInt8) (query : Query)
    (o : Sending) (size : Nat) (buffer : List UInt8) (conn : PGconn) :
    dbExec getResult query o size buffer conn =
      ((getResult (lastResult o) size buffer).1, (getResult (lastResult o) size buffer).2, none) := by
  unfold dbExec pqExec lastResult
  rw [clearDbconn_idle conn]
  cases hsent : o.sent with
  | true => simp [pqSendQuery, hsent]
  | false => simp [pqSendQuery, hsent]

/-! ### The reader -/

/-- What a reader makes of a result: a failure, a NULL, or the text it copies. -/
inductive Reading where
  | failed
  | null
  | value (text : List UInt8)
  deriving DecidableEq, Repr

def reading (size : Nat) : Option PGresult → Reading
  | none => .failed
  | some res =>
    if !res.tuplesOk then .failed
    else
      match res.value with
      | none => .null
      | some value => if res.ntuples = 1 ∧ res.nfields = 1 then .value ((cstr value).take size) else .failed

theorem reading_value_iff {size : Nat} {result : Option PGresult} {text : List UInt8} :
    reading size result = .value text ↔ ∃ res value, result = some res ∧ res.tuplesOk = true ∧
      res.ntuples = 1 ∧ res.nfields = 1 ∧ res.value = some value ∧ text = (cstr value).take size := by
  constructor
  · intro h
    unfold reading at h
    split at h
    · cases h
    rename_i res
    split at h
    · cases h
    rename_i hok
    split at h
    · cases h
    rename_i value hvalue
    split at h
    · rename_i hone
      cases h
      exact ⟨res, value, rfl, by simpa using hok, hone.1, hone.2, hvalue, rfl⟩
    · cases h
  · intro h
    obtain ⟨res, value, rfl, hok, hrows, hcols, hvalue, rfl⟩ := h
    simp [reading, hok, hvalue, hrows, hcols]

/-- The code and the buffer it returns with. -/
def Reading.report (isNull failed : Int) (buffer : List UInt8) : Reading → Int × List UInt8
  | .failed => (failed, buffer)
  | .null => (isNull, buffer)
  | .value text => (text.length, memcpy buffer text)

/-- What the reader of an extrato tells apart. -/
def Reading.merged : Reading → Reading
  | .null => .failed
  | .failed => .failed
  | .value text => .value text

theorem dbGetResult_reading (isNull failed : Int) (res : Option PGresult) (size : Nat) (buffer : List UInt8) :
    dbGetResult isNull failed res size buffer = (reading size res).report isNull failed buffer := by
  unfold dbGetResult reading
  cases res with
  | none => rfl
  | some res =>
    simp only
    cases res.tuplesOk with
    | false => rfl
    | true =>
      cases res.value with
      | none => rfl
      | some value =>
        by_cases hrows : res.ntuples = 1
        · by_cases hcols : res.nfields = 1
          · simp only [hrows, hcols, and_self, if_true, ne_eq, not_true_eq_false, if_false, Reading.report,
              Bool.not_true, Bool.false_eq_true]
            rw [List.length_take, Nat.min_comm, ← List.take_eq_take_min]
          · simp [hrows, hcols, Reading.report]
        · simp [hrows, Reading.report]

/-- As much text, in the same buffer, is the same text. -/
theorem memcpy_inj {buffer a b : List UInt8} (hlen : a.length = b.length)
    (h : memcpy buffer a = memcpy buffer b) : a = b := by
  unfold memcpy at h
  exact (List.append_inj h hlen).1

/-- The codes of a transaction are those of what was read. -/
theorem report_transacao_inj {buffer : List UInt8} {a b : Reading}
    (h : a.report transacaoInvalid transacaoDbError buffer = b.report transacaoInvalid transacaoDbError buffer) :
    a = b := by
  have hcode := congrArg Prod.fst h
  have hbuffer := congrArg Prod.snd h
  cases a <;> cases b <;>
    simp only [Reading.report, transacaoInvalid, transacaoDbError, Nat.cast_inj] at hcode hbuffer
  case value.value => rw [memcpy_inj hcode hbuffer]
  all_goals first | rfl | omega

theorem report_extrato_iff {buffer : List UInt8} {a b : Reading} :
    a.report (-1) (-1) buffer = b.report (-1) (-1) buffer ↔ a.merged = b.merged := by
  constructor
  · intro h
    have hcode := congrArg Prod.fst h
    have hbuffer := congrArg Prod.snd h
    cases a <;> cases b <;> simp only [Reading.report, Nat.cast_inj] at hcode hbuffer
    case value.value => rw [memcpy_inj hcode hbuffer]
    all_goals first | rfl | omega
  · intro h
    cases a <;> cases b <;> simp only [Reading.merged, Reading.value.injEq, reduceCtorEq] at h
    case value.value => rw [h]
    all_goals rfl

end Rinha.Client
