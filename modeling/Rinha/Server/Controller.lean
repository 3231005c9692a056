import Rinha.Client.Db

/-! A request's slot (`server.h`), the responses (`response.h`) and what `main.c`
does with them.

`κ` is what a slot keeps of its database connection. The functions that are
called through `db_request_sender` and `db_response_handler` take the slot and
that connection. -/
namespace Rinha.Server
open Library Request Client

inductive Event where
  | acceptting
  | reading
  | writing
  | closing
  | dbResponding
  deriving DecidableEq, Repr

/-- What `db_request_sender` points to. -/
inductive Sender where
  | startTransacaoAsync
  | startExtratoAsync
  deriving DecidableEq, Repr

/-- What `db_response_handler` points to. -/
inductive Handler where
  | endTransacaoAsync
  | endExtratoAsync
  deriving DecidableEq, Repr

/-- `ReqRes`; a pointer that is NULL is `none`, and `ring` is whether it is not. -/
structure ReqRes (κ : Type*) where
  ring : Bool
  lastEvent : Event
  buffer : List UInt8
  clientFd : Int
  dbRequestSender : Option Sender
  dbResponseHandler : Option Handler
  dbData : Option RequestData
  dbconn : Option κ
  toExit : Bool
  deriving DecidableEq

variable {κ : Type*}

/-- A slot that is all zero. -/
def ReqRes.zero : ReqRes κ :=
  ⟨false, .acceptting, List.replicate (maxReqRespSize + 1) 0, 0, none, none, none, none, false⟩

/-! ### Responses -/

/-- `LINE_STRING` where the macro is used, which is in `main.c`. -/
def fileLine (line : String) : List UInt8 := bytes "File: src/main.c\r\nLine: " ++ bytes line ++ bytes "\r\n"

def closeEmpty : List UInt8 :=
  bytes "Connection: close\r\nContent-type: text/plain\r\nContent-Length: 0\r\n\r\n"

def badrequest (line : String) : List UInt8 :=
  bytes "HTTP/1.1 400 Bad Request\r\n" ++ fileLine line ++ closeEmpty

def internalerror (line : String) : List UInt8 :=
  bytes "HTTP/1.1 500 Internal Error\r\n" ++ fileLine line ++ closeEmpty

def notfound : List UInt8 := bytes "HTTP/1.1 404 Not found\r\n" ++ closeEmpty

def unprocessable (line : String) : List UInt8 :=
  bytes "HTTP/1.1 422 Unprocessable Entity\r\n" ++ fileLine line ++ closeEmpty

def okExit (line : String) : List UInt8 := bytes "HTTP/1.1 200 OK\r\n" ++ fileLine line ++ closeEmpty

def okPing : List UInt8 := bytes "HTTP/1.1 200 PONG\r\n\r\n"

/-- The text of `OK_TRANSACAO` and `OK_EXTRATO`, up to the number. -/
def okHead : List UInt8 :=
  bytes "HTTP/1.1 200 OK\r\nConnection: close\r\nContent-type: text/plain\r\nContent-Length: "

/-- `OK_TRANSACAO` and `OK_EXTRATO` with their arguments. -/
def okText (contentLength : Int) (body : List UInt8) : List UInt8 :=
  okHead ++ decimalInt contentLength ++ bytes "\r\n\r\n" ++ body ++ bytes "\n"

/-- `SET_STATIC_RESPONSE`, which copies the NUL too. -/
def ReqRes.setStaticResponse (reqres : ReqRes κ) (response : List UInt8) : ReqRes κ :=
  {reqres with buffer := memcpy reqres.buffer (response ++ [0])}

/-- `snprintf(reqres->buffer, MAX_REQ_RESP_SIZE, ..., n_writed + 1, db_buffer)`: the
array has to have a NUL for `%s`. -/
def ReqRes.printOk (reqres : ReqRes κ) (n_writed : Int) (db_buffer : List UInt8) :
    Except Fault (ReqRes κ) :=
  if 0 ∈ db_buffer then
    .ok {reqres with
      buffer := memcpy reqres.buffer (snprintf maxReqRespSize (okText (n_writed + 1) (cstr db_buffer)))}
  else .error .overread

/-! ### The functions of `main.c` -/

def endTransacaoAsync (polls : List Poll) (reqres : ReqRes κ) (conn : PGconn) :
    Except Fault (ReqRes κ × PGconn) :=
  match dbEndTransacao polls 50 (List.replicate 50 0) conn with
  | .error f => .error f
  | .ok (n_writed, db_buffer, conn) =>
    if n_writed = transacaoDbError then .ok (reqres.setStaticResponse (internalerror "15"), conn)
    else if n_writed = transacaoInvalid then .ok (reqres.setStaticResponse (unprocessable "19"), conn)
    else if n_writed < 0 then .ok (reqres.setStaticResponse (internalerror "26"), conn)
    else (reqres.printOk n_writed db_buffer).map fun reqres => (reqres, conn)

def startTransacaoAsync (o : Sending) (reqres : ReqRes κ) (conn : PGconn) :
    Except Fault (ReqRes κ × PGconn) :=
  match reqres.dbData with
  | none => .error .null
  | some reqdata =>
    -- `free(reqres->db_data)`
    let reqres := {reqres with dbData := none}
    match parseTransacoes reqres.buffer reqdata with
    | .error .invalid => .ok (reqres.setStaticResponse (unprocessable "40"), conn)
    | .error .memory => .ok (reqres.setStaticResponse (internalerror "44"), conn)
    | .ok transacao =>
      let (ret, conn) := dbStartTransacao transacao o conn
      if ret < 0 then .ok (reqres.setStaticResponse (internalerror "55"), conn)
      else .ok ({reqres with dbResponseHandler := some .endTransacaoAsync}, conn)

def endExtratoAsync (polls : List Poll) (reqres : ReqRes κ) (conn : PGconn) :
    Except Fault (ReqRes κ × PGconn) :=
  match dbEndExtrato polls (2000 - 1) (List.replicate 2000 0) conn with
  | .error f => .error f
  | .ok (n_writed, db_buffer, conn) =>
    if n_writed < 0 then .ok (reqres.setStaticResponse (internalerror "66"), conn)
    else (reqres.printOk n_writed db_buffer).map fun reqres => (reqres, conn)

def startExtratoAsync (o : Sending) (reqres : ReqRes κ) (conn : PGconn) :
    Except Fault (ReqRes κ × PGconn) :=
  match reqres.dbData with
  | none => .error .null
  | some reqdata =>
    let reqres := {reqres with dbData := none}
    let (ret, conn) := dbStartExtrato reqdata.id o conn
    if ret < 0 then .ok (reqres.setStaticResponse (internalerror "79"), conn)
    else .ok ({reqres with dbResponseHandler := some .endExtratoAsync}, conn)

/-- The call through `db_request_sender`. -/
def Sender.call : Sender → Sending → ReqRes κ → PGconn → Except Fault (ReqRes κ × PGconn)
  | startTransacaoAsync => Server.startTransacaoAsync
  | startExtratoAsync => Server.startExtratoAsync

/-- The call through `db_response_handler`. -/
def Handler.call : Handler → List Poll → ReqRes κ → PGconn → Except Fault (ReqRes κ × PGconn)
  | endTransacaoAsync => Server.endTransacaoAsync
  | endExtratoAsync => Server.endExtratoAsync

/-- `controller`; the allocation of `reqdata` does not fail. -/
def controller (reqres : ReqRes κ) : ReqRes κ :=
  match requestParser reqres.buffer with
  | .error .memory => reqres.setStaticResponse (internalerror "93")
  | .error .invalid => reqres.setStaticResponse (unprocessable "98")
  | .ok reqdata =>
    if reqdata.uri = .exit then {reqres.setStaticResponse (okExit "111") with toExit := true}
    else if reqdata.uri = .ping then reqres.setStaticResponse okPing
    else if 6 ≤ reqdata.id then reqres.setStaticResponse notfound
    else
      let good_request := (reqdata.method = .get ∧ reqdata.uri = .extrato) ∨
        (reqdata.method = .post ∧ reqdata.uri = .transacao)
      if ¬ good_request then reqres.setStaticResponse (badrequest "131")
      else
        let reqres := {reqres with dbData := some reqdata}
        if reqdata.method = .get ∧ reqdata.uri = .extrato then
          {reqres with dbRequestSender := some .startExtratoAsync}
        else if reqdata.method = .post ∧ reqdata.uri = .transacao then
          {reqres with dbRequestSender := some .startTransacaoAsync}
        else reqres.setStaticResponse (internalerror "147")

/-! ### What a request asks for -/

/-- The three digits of the status line. -/
def status (buffer : List UInt8) : List UInt8 := (buffer.drop 9).take 3

/-- The request in a buffer is for one of the two routes that use the database, and
for a client that is not refused. -/
def WantsDatabase (buffer : List UInt8) : Prop :=
  ∃ reqdata, requestParser buffer = .ok reqdata ∧ reqdata.id < 6 ∧
    ((reqdata.method = .get ∧ reqdata.uri = .extrato) ∨ (reqdata.method = .post ∧ reqdata.uri = .transacao))

/-- The command that answers the request in a buffer, if it has one. -/
def queryOf (buffer : List UInt8) : Option Query :=
  match requestParser buffer with
  | .error _ => none
  | .ok reqdata =>
    if 6 ≤ reqdata.id then none
    else if reqdata.method = .get ∧ reqdata.uri = .extrato then some (.getExtrato reqdata.id)
    else if reqdata.method = .post ∧ reqdata.uri = .transacao then
      match parseTransacoes buffer reqdata with
      | .error _ => none
      | .ok transacao => some (.ofTransacao transacao)
    else none

end Rinha.Server
