import Rinha.Database.Atomic
import Rinha.Database.Returns
import Rinha.Server.Advances
import Rinha.Server.Exchange

/-! Servers and their database, together.

`docker-compose.yml` runs some instances of the server on one database. Every
connection in the pool of an instance is a session of the database; a command that was
sent on it is a call that the session is given once, statements of all the sessions
interleave, and what the call returns is the one result that the server then reads.

What a server takes as given, the results of a command, is fixed here: it can read the
reply only when the database has returned the call, and only with its result
(`System.Ready`). `decode` reads a text as PostgreSQL does and `extratoJson` is the
text that it writes of an extrato. `executed` is no data of the programs: it records
which commands' calls have returned. -/
namespace Rinha.Deployment
open Library Client Server Database

/-- A connection in the pool of an instance. -/
abbrev Session (K N : Nat) := Fin K × Fin N

/-- How far the database is with the command on a connection. -/
inductive Stage where
  /-- Its call was not made. -/
  | waiting
  | running
  | returned (result : PGresult)
  deriving DecidableEq

/-- A call that has returned: of the command with this number of this instance. -/
structure Execution (K N : Nat) where
  server : Fin K
  tag : Nat
  entry : Entry (Session K N)

structure System (K P N : Nat) where
  servers : Fin K → State P N
  db : Db (Session K N)
  stage : Session K N → Stage
  executed : List (Execution K N)

/-- What happens next: a turn of an instance's loop, or a step of the database. -/
inductive Event (K N : Nat) where
  | server (k : Fin K) (input : Input)
  | database (act : Act (Session K N))

/-- Why an event does not happen. -/
inductive Refused where
  | server (e : Stop)
  | database (e : Blocked)
  /-- The other side has not got so far. -/
  | notReady
  deriving DecidableEq

variable {K P N : Nat}

namespace System

/-- The command in progress on a connection. -/
def command (sys : System K P N) (s : Session K N) : PGconn := (sys.servers s.1).conns s.2

section Steps
variable (decode : List UInt8 → Option (List Char)) (extratoJson : Extrato → List UInt8)

/-- The reply is there to be read: what the call has returned, or the error for a
command that is no call. -/
def Ready (sys : System K P N) (k : Fin K) : Option (Fin N × Command) → Prop
  | none => True
  | some (d, command) =>
    match call decode command.query, sys.stage (k, d) with
    | .error _, _ => command.results = [raised]
    | .ok _, .returned result => command.results = [result]
    | .ok _, _ => False

instance (sys : System K P N) (k : Fin K) : (reply : Option (Fin N × Command)) → Decidable (sys.Ready decode k reply)
  | none => .isTrue trivial
  | some (d, command) =>
    match hcall : call decode command.query, hstage : sys.stage (k, d) with
    | .error _, _ => decidable_of_iff (command.results = [raised]) (by simp only [Ready, hcall])
    | .ok _, .returned result => decidable_of_iff (command.results = [result]) (by simp only [Ready, hcall, hstage])
    | .ok _, .waiting => .isFalse (by simp only [Ready, hcall, hstage, not_false_iff])
    | .ok _, .running => .isFalse (by simp only [Ready, hcall, hstage, not_false_iff])

/-- The call is that of the command on the session's connection, and was not made. -/
def Calls (sys : System K P N) (act : Act (Session K N)) : Prop :=
  ∀ s ∈ act.callOf, sys.stage s = .waiting ∧
    ∃ command ∈ sys.command s, act.sqlCall = (call decode command.query).toOption

instance (sys : System K P N) (act : Act (Session K N)) : Decidable (sys.Calls decode act) :=
  inferInstanceAs (Decidable (∀ s ∈ act.callOf, _ ∧ ∃ command ∈ sys.command s, _))

/-- A command that the turn has sent waits for its call. -/
def serve (sys : System K P N) (k : Fin K) (s : State P N) : System K P N where
  servers := Function.update sys.servers k s
  db := sys.db
  stage := fun session =>
    if session.1 = k ∧ ∃ command ∈ s.conns session.2, (sys.servers k).sent ≤ command.tag then .waiting
    else sys.stage session
  executed := sys.executed

/-- What the step of the database has returned. -/
def returned (db db' : Db (Session K N)) : Option (Entry (Session K N)) := db'.history[db.history.length]?

/-- A call is made, or returns. -/
def advance (sys : System K P N) (act : Act (Session K N)) (db : Db (Session K N)) : System K P N :=
  match act.callOf, returned sys.db db with
  | some s, _ => {sys with db := db, stage := Function.update sys.stage s .running}
  | none, none => {sys with db := db}
  | none, some e =>
    match sys.command e.session with
    | none => {sys with db := db}
    | some command =>
      {sys with
        db := db
        stage := Function.update sys.stage e.session (.returned (e.result extratoJson))
        executed := sys.executed ++ [⟨e.session.1, command.tag, e⟩]}

def step (sys : System K P N) : Event K N → Except Refused (System K P N)
  | .server k input =>
    if sys.Ready decode k ((sys.servers k).reads input) then
      match (sys.servers k).step input with
      | .error e => .error (.server e)
      | .ok s => .ok (sys.serve k s)
    else .error .notReady
  | .database act =>
    if sys.Calls decode act then
      match sys.db.step act with
      | .error e => .error (.database e)
      | .ok db => .ok (sys.advance extratoJson act db)
    else .error .notReady

/-- The instances have started, and the tables are those of `init.pgsql`. -/
def boot (s : State P N) : System K P N := ⟨fun _ => s, .seeded, fun _ => .waiting, []⟩

end Steps
end System
end Rinha.Deployment
