import Rinha.Server.Slots

/-! What is sent on the connections.

A write is asked for with the bytes up to the first NUL, and the kernel may send
fewer; the loop closes the connection when the write has completed. When a request has
set `to_exit`, the loop writes its response once more, itself, closes every
connection and returns; the kernel may have sent any part of a write that is pending
then. -/
namespace Rinha.Server
open Library Request Client

variable {P N : Nat}

/-- The bytes that `push_writing` asks for: `strnlen(req->buffer, MAX_REQ_RESP_SIZE)` of them. -/
def responseText (buffer : List UInt8) : List UInt8 := cstr (buffer.take maxReqRespSize)

/-- The accepted connections, by their numbers. -/
structure Net where
  sent : Nat → List UInt8
  failed : Nat → Bool
  /-- The server closes it, or has the kernel do so. -/
  closed : Nat → Bool

namespace Net

def empty : Net := ⟨fun _ => [], fun _ => false, fun _ => false⟩

def send (net : Net) (client : Nat) (text : List UInt8) : Net :=
  {net with sent := Function.update net.sent client (net.sent client ++ text)}

def fail (net : Net) (client : Nat) : Net := {net with failed := Function.update net.failed client true}

def close (net : Net) (client : Nat) : Net := {net with closed := Function.update net.closed client true}

/-- What the completion of `p` says of the connection: what was sent, or that an operation
on it failed; the loop closes a connection behind a write. -/
def complete (net : Net) (s : State P N) (c : Completion) (p : Pending P) : Net :=
  let client := s.client p.slot
  match p.op with
  | .accept => net
  | .dbRead => net
  | .read => if c.result < 0 then net.fail client else net
  | .write =>
    if c.result < 0 then net.fail client
    else (net.send client ((responseText (s.pool p.slot).buffer).take c.result.toNat)).close client
  | .close => if c.result < 0 then net.fail client else net

end Net

/-- How much of the pending writes the kernel has sent when the loop returns, and how
many bytes the loop's own `write` sends. -/
structure Leaving where
  rest : Nat → Nat
  direct : Nat

/-- The text of a connection's write, if one is pending. -/
def pendingText (s : State P N) (client : Nat) : List UInt8 :=
  match s.pending.find? fun p => p.op = .write ∧ s.client p.slot = client with
  | some p => responseText (s.pool p.slot).buffer
  | none => []

/-- `write(req->client_fd, req->buffer, strlen(req->buffer))`, and the `close` of every
connection. -/
def Net.leave (net : Net) (s : State P N) (i : Fin P) (l : Leaving) : Net where
  sent client := net.sent client ++ (pendingText s client).take (l.rest client) ++
    if client = s.client i then (cstr (s.pool i).buffer).take l.direct else []
  failed := net.failed
  closed _ := true

/-- The state at `ioseen`. -/
def State.ioseen (s : State P N) (c : Completion) (p : Pending P) : Except Stop (State P N) :=
  if c.result < 0 then .ok ((s.completed c.index).fill c p)
  else ((s.completed c.index).fill c p).onEvent p.slot c

/-- The server and its connections. -/
structure Wired (P N : Nat) where
  state : State P N
  net : Net
  /-- The loop has returned. -/
  returned : Bool

structure WireInput where
  input : Input
  leaving : Leaving

namespace Wired

/-- The end of the loop. -/
def leave (w : Wired P N) (net : Net) (c : Completion) (p : Pending P) (l : Leaving) : Except Stop (Wired P N) :=
  match w.state.ioseen c p with
  | .ok s => .ok ⟨s, net.leave s p.slot l, true⟩
  | .error e => .error e

/-- One turn of the loop, with the connections. No more is written than was asked. -/
def step (w : Wired P N) (i : WireInput) : Except Stop (Wired P N) :=
  if w.returned then .error .exited
  else
    match i.input with
    | .completes c outcomes =>
      match w.state.pending[c.index]? with
      | none => .error .notPending
      | some p =>
        if p.op = .write ∧ ((responseText (w.state.pool p.slot).buffer).length : Int) < c.result then
          .error .notPending
        else
          let net := w.net.complete w.state c p
          match w.state.step (.completes c outcomes) with
          | .ok s => .ok ⟨s, net, false⟩
          | .error e => if e = .exited then w.leave net c p i.leaving else .error e
    | input =>
      match w.state.step input with
      | .ok s => .ok ⟨s, w.net, false⟩
      | .error e => .error e

end Wired

/-! ### One response for each connection -/

/-- The responses that were given for a connection. -/
def given (log : List Obs) (client : Nat) : List (List UInt8) :=
  log.filterMap fun
    | .wrote client' buffer _ => if client' = client then some (responseText buffer) else none
    | _ => none

/-- A request was received from the connection. -/
def Asked (log : List Obs) (client : Nat) : Prop := ∃ request, .received client request ∈ log

/-- It is of a request from the connection. -/
def Obs.asks (client : Nat) : Obs → Bool
  | received client' _ => client' = client
  | _ => false

instance (log : List Obs) (client : Nat) : Decidable (Asked log client) :=
  decidable_of_iff (log.any (Obs.asks client) = true) <| by
    rw [List.any_eq_true]
    constructor
    · intro h
      obtain ⟨o, ho, hasks⟩ := h
      cases o with
      | received client' request =>
        obtain rfl : client' = client := by simpa [Obs.asks] using hasks
        exact ⟨request, ho⟩
      | _ => cases hasks
    · intro h
      obtain ⟨request, hmem⟩ := h
      exact ⟨_, hmem, by simp [Obs.asks]⟩

/-- What was sent is a part of the one response, from its beginning; and it is all of
it when the connection is closed and nothing has failed on it. -/
structure Delivered (log : List Obs) (net : Net) (client : Nat) : Prop where
  one : (given log client).length ≤ 1
  part : net.sent client <+: (given log client).flatten
  whole : net.closed client = true → net.failed client = false → Asked log client →
    given log client = [net.sent client]

def AllDelivered (w : Wired P N) : Prop := ∀ client, Delivered w.state.log w.net client

/-- A write that does not fail sends all that was asked. -/
def WholeWrite (w : Wired P N) (i : WireInput) : Prop :=
  match i.input with
  | .completes c _ => ∀ p ∈ w.state.pending[c.index]?, p.op = .write → 0 ≤ c.result →
      c.result = (responseText (w.state.pool p.slot).buffer).length
  | .interrupted _ => True
  | .fails => True

/-- The completion is of a read, and what was read is a request for `/exit`. -/
def Exits (s : State P N) (c : Completion) (p : Pending P) : Prop :=
  p.op = .read ∧ 0 ≤ c.result ∧
    (requestParser (memcpy (s.pool p.slot).buffer c.data)).map RequestData.uri = .ok .exit

instance (s : State P N) (c : Completion) (p : Pending P) : Decidable (Exits s c p) :=
  inferInstanceAs (Decidable (_ ∧ _))

/-- A request for `/exit` is read. -/
def ReadsExit (w : Wired P N) (i : WireInput) : Prop :=
  match i.input with
  | .completes c _ => ∃ p ∈ w.state.pending[c.index]?, Exits w.state c p
  | .interrupted _ => False
  | .fails => False

instance (w : Wired P N) : ∀ i : WireInput, Decidable (WholeWrite w i ∧ ¬ ReadsExit w i)
  | ⟨.completes c _, _⟩ => inferInstanceAs (Decidable
      ((∀ p ∈ w.state.pending[c.index]?, p.op = .write → 0 ≤ c.result →
        c.result = (responseText (w.state.pool p.slot).buffer).length) ∧
          ¬ ∃ p ∈ w.state.pending[c.index]?, Exits w.state c p))
  | ⟨.interrupted _, _⟩ => inferInstanceAs (Decidable (True ∧ ¬ False))
  | ⟨.fails, _⟩ => inferInstanceAs (Decidable (True ∧ ¬ False))

end Rinha.Server
