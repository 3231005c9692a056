import Mathlib.Data.List.FinRange
import Rinha.Server.Controller
import Rinha.Server.Queue

/-! `server_loop` of `server.c`.

`P` is the size of the pool of slots and `N` that of the pool of database
connections. A step is one turn of the loop: a completion is handled, the queue
is dispatched, and the server is about to wait again. What the kernel and the
database do is the step's input. Submissions and allocations do not fail, and the
database sockets are valid.

`client`, `accepted`, `sent` and `log` are no data of the program: they number
the accepted connections and the commands, and record what was received, sent to
the database and written. -/
namespace Rinha.Server
open Library Request Client

/-- A submitted operation. -/
inductive Op where
  | accept
  | read
  | write
  | close
  | dbRead
  deriving DecidableEq, Repr

/-- A submitted operation with its `user_data`. -/
structure Pending (P : Nat) where
  op : Op
  slot : Fin P
  deriving DecidableEq

/-- What happened, for which of the accepted connections. -/
inductive Obs where
  /-- The buffer after a read. -/
  | received (client : Nat) (buffer : List UInt8)
  | sent (client tag : Nat) (query : Query)
  /-- The buffer given to a write, and the connection the reply was read from, if
  it was read from one, as it was before. -/
  | wrote (client : Nat) (buffer : List UInt8) (source : PGconn)
  deriving DecidableEq

structure State (P N : Nat) where
  /-- `REQRES_POOL` -/
  pool : Fin P → ReqRes (Fin N)
  /-- `DBCONNS_USED` -/
  used : Fin N → Bool
  /-- `DBCONNS_POOL` -/
  conns : Fin N → PGconn
  queue : Queue (Fin P)
  pending : List (Pending P)
  client : Fin P → Nat
  accepted : Nat
  sent : Nat
  log : List Obs

/-- Why the loop does not come to wait again. -/
inductive Stop where
  /-- A `FATAL`, or a NULL pointer that is followed. -/
  | fault (f : Fault)
  | queue (f : QueueFault)
  /-- `FATAL3("%s", "There is no ReqRes available")` -/
  | noSlot
  /-- The loop returned: a request had set `to_exit`. -/
  | exited
  /-- The kernel has no such completion to give. -/
  | notPending
  /-- The dispatch took more turns than the model gives it. -/
  | fuel
  deriving DecidableEq, Repr

/-! ### What the kernel and the database give -/

/-- What becomes of a command that is sent. -/
structure Outcome where
  sent : Bool
  results : List PGresult

/-- What `io_uring_wait_cqe` gives: the completion of the pending operation with
this index. A read leaves `data` in the buffer; `polls` is what a `wait_db` finds. -/
structure Completion where
  index : Nat
  result : Int
  data : List UInt8
  polls : List Poll

/-- A read returns how many bytes it left. -/
def Completion.possible (c : Completion) (op : Op) : Bool :=
  op ≠ .read || c.result < 0 || (c.data.length ≤ maxReqRespSize && c.result = c.data.length)

inductive Input where
  /-- The wait gives a completion. -/
  | completes (c : Completion) (outcomes : Nat → Outcome)
  /-- The wait is interrupted (-4). -/
  | interrupted (outcomes : Nat → Outcome)
  /-- The wait fails otherwise. -/
  | fails

/-- `reqres->dbconn = dbconn` -/
def ReqRes.setDbconn {κ : Type*} (reqres : ReqRes κ) (dbconn : κ) : ReqRes κ :=
  {reqres with dbconn := some dbconn}

namespace State
variable {P N : Nat}

def setSlot (s : State P N) (i : Fin P) (reqres : ReqRes (Fin N)) : State P N :=
  {s with pool := Function.update s.pool i reqres}

def setConn (s : State P N) (c : Fin N) (conn : PGconn) : State P N :=
  {s with conns := Function.update s.conns c conn}

def setUsed (s : State P N) (c : Fin N) (b : Bool) : State P N :=
  {s with used := Function.update s.used c b}

/-- `io_uring_submit` of an operation on a slot. -/
def submit (s : State P N) (op : Op) (i : Fin P) : State P N :=
  {s with pending := s.pending ++ [⟨op, i⟩]}

def note (s : State P N) (o : Obs) : State P N := {s with log := s.log ++ [o]}

/-! ### Connections -/

/-- `get_dbconn`: the first connection that is not used. -/
def getDbconn (s : State P N) : Option (Fin N) × State P N :=
  match (List.finRange N).find? fun c => !s.used c with
  | some c => (some c, s.setUsed c true)
  | none => (none, s)

/-- `release_dbconn`; NULL is no connection of the pool. -/
def releaseDbconn (s : State P N) (dbconn : Option (Fin N)) : Except Stop (State P N) :=
  match dbconn with
  | some c => .ok (s.setUsed c false)
  | none => .error (.fault .fatal)

/-! ### Slots -/

/-- `init_reqres`: the first slot that is free. -/
def initReqres (s : State P N) : Option (Fin P × State P N) :=
  match (List.finRange P).find? fun i => !(s.pool i).ring with
  | some i => some (i, s.setSlot i {s.pool i with ring := true})
  | none => none

def deinitReqres (s : State P N) (i : Fin P) : State P N := s.setSlot i .zero

/-! ### Submissions -/

def pushAccepting (s : State P N) : Except Stop (State P N) :=
  match s.initReqres with
  | none => .error .noSlot
  | some (i, s) => .ok ((s.setSlot i {s.pool i with lastEvent := .acceptting}).submit .accept i)

def pushReading (s : State P N) (i : Fin P) (client_fd : Int) : State P N :=
  (s.setSlot i {s.pool i with clientFd := client_fd, lastEvent := .reading}).submit .read i

def pushWriting (s : State P N) (i : Fin P) (source : PGconn) : State P N :=
  ((s.setSlot i {s.pool i with lastEvent := .writing}).submit .write i).note
    (.wrote (s.client i) (s.pool i).buffer source)

def pushCloseConnection (s : State P N) (i : Fin P) : State P N :=
  (s.setSlot i {s.pool i with lastEvent := .closing}).submit .close i

def pushDbResponding (s : State P N) (i : Fin P) : State P N :=
  (s.setSlot i {s.pool i with lastEvent := .dbResponding}).submit .dbRead i

/-! ### Dispatch -/

/-- A command that was not in progress before is counted and recorded. -/
def noteSent (s : State P N) (i : Fin P) (before after : PGconn) : State P N :=
  match before, after with
  | none, some command =>
    {s with sent := s.sent + 1}.note (.sent (s.client i) command.tag command.query)
  | _, _ => s

/-- `reqres->dbconn = dbconn; reqres->db_request_sender(reqres);` -/
def callSender (s : State P N) (i : Fin P) (c : Fin N) (o : Outcome) : Except Stop (State P N) :=
  let reqres := (s.pool i).setDbconn c
  match reqres.dbRequestSender with
  | none => .error (.fault .null)
  | some sender =>
    match sender.call ⟨s.sent, o.sent, o.results⟩ reqres (s.conns c) with
    | .error f => .error (.fault f)
    | .ok (reqres, conn) => .ok (((s.setSlot i reqres).setConn c conn).noteSent i (s.conns c) conn)

/-- The loop of `queu_dispatch` with a connection in hand, and the connection it
has in hand at the end. `outcomes` is what becomes of the commands, in order. -/
def dispatchLoop (outcomes : Nat → Outcome) :
    Nat → Nat → Option (Fin N) → State P N → Except Stop (Option (Fin N) × State P N)
  | _, _, none, s => .ok (none, s)
  | 0, _, some _, _ => .error .fuel
  | fuel + 1, k, some c, s =>
    match s.queue.queuPop with
    | .error f => .error (.queue f)
    | .ok (none, queue) => .ok (some c, {s with queue := queue})
    | .ok (some i, queue) =>
      match {s with queue := queue}.callSender i c (outcomes k) with
      | .error e => .error e
      | .ok s =>
        if (s.pool i).dbResponseHandler = none then
          -- The connection is released, and the loop goes on with it.
          dispatchLoop outcomes fuel (k + 1) (some c) ((s.setUsed c false).pushWriting i none)
        else
          let (dbconn, s) := (s.pushDbResponding i).getDbconn
          dispatchLoop outcomes fuel (k + 1) dbconn s

/-- `queu_dispatch` -/
def queuDispatch (outcomes : Nat → Outcome) (s : State P N) : Except Stop (State P N) :=
  let (dbconn, s) := s.getDbconn
  match dispatchLoop outcomes (s.queue.contents.length + 1) 0 dbconn s with
  | .error e => .error e
  | .ok (some c, s) => s.releaseDbconn (some c)
  | .ok (none, s) => .ok s

/-! ### Completions -/

/-- A read that was done has left its bytes in the slot's buffer. -/
def fill (s : State P N) (c : Completion) (p : Pending P) : State P N :=
  if p.op = .read ∧ 0 ≤ c.result then
    let buffer := memcpy (s.pool p.slot).buffer c.data
    (s.setSlot p.slot {s.pool p.slot with buffer := buffer}).note (.received (s.client p.slot) buffer)
  else s

/-- `case EVENT_ACCEPTTING` -/
def onAccepted (s : State P N) (i : Fin P) (result : Int) : Except Stop (State P N) :=
  ({s with client := Function.update s.client i s.accepted, accepted := s.accepted + 1}.pushReading
    i result).pushAccepting

/-- `case EVENT_READING` -/
def onRead (s : State P N) (i : Fin P) : Except Stop (State P N) :=
  let s := s.setSlot i (controller (s.pool i))
  if (s.pool i).dbRequestSender = none then .ok (s.pushWriting i none)
  else
    match s.queue.queuPush i with
    | .error f => .error (.queue f)
    | .ok queue => .ok {s with queue := queue}

/-- `case EVENT_DB_RESPONDING` -/
def onDbResponding (s : State P N) (i : Fin P) (polls : List Poll) : Except Stop (State P N) :=
  match (s.pool i).dbResponseHandler, (s.pool i).dbconn with
  | none, _ => .error (.fault .null)
  | some _, none => .error (.fault .fatal)
  | some handler, some c =>
    match handler.call polls (s.pool i) (s.conns c) with
    | .error f => .error (.fault f)
    | .ok (reqres, conn) =>
      match ((s.setSlot i reqres).setConn c conn).releaseDbconn reqres.dbconn with
      | .error e => .error e
      | .ok s' => .ok (s'.pushWriting i (s.conns c))

/-- The `switch` on the slot's last event. -/
def onEvent (s : State P N) (i : Fin P) (c : Completion) : Except Stop (State P N) :=
  match (s.pool i).lastEvent with
  | .acceptting => s.onAccepted i c.result
  | .reading => s.onRead i
  | .dbResponding => s.onDbResponding i c.polls
  | .writing => .ok (s.pushCloseConnection i)
  | .closing => .ok (s.deinitReqres i)

/-- A completion up to `ioseen`, and the check for `to_exit` behind it. -/
def handle (s : State P N) (c : Completion) : Except Stop (State P N) :=
  match s.pending[c.index]? with
  | none => .error .notPending
  | some p =>
    if !c.possible p.op then .error .notPending
    else
      let s := ({s with pending := s.pending.eraseIdx c.index}).fill c p
      match if c.result < 0 then .ok s else s.onEvent p.slot c with
      | .error e => .error e
      | .ok s => if (s.pool p.slot).toExit then .error .exited else .ok s

/-- One turn, from where the server is about to wait to where it is again. -/
def step (s : State P N) : Input → Except Stop (State P N)
  | .completes c outcomes =>
    match s.handle c with
    | .error e => .error e
    | .ok s => s.queuDispatch outcomes
  | .interrupted outcomes => s.queuDispatch outcomes
  | .fails => .error (.fault .fatal)

/-- The program's memory when it starts: all zero, and the connections idle. -/
def zero : State P N :=
  ⟨fun _ => .zero, fun _ => false, fun _ => none, .empty, [], fun _ => 0, 0, 0, []⟩

/-- Up to where the server is about to wait for the first time. -/
def start : Except Stop (State P N) :=
  match (zero : State P N).pushAccepting with
  | .error e => .error e
  | .ok s => s.queuDispatch fun _ => ⟨false, []⟩

end State
end Rinha.Server
