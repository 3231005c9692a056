import Rinha.Database.Json
import Rinha.Server.Responses

/-! How a reply of the database is framed in the response.

Three sizes are chosen by hand: the arrays of 50 and 2000 bytes that the reply is
copied to, and `MAX_REQ_RESP_SIZE` for the response. A reply of `push_credito` and
`push_debito` takes at most 42 bytes and one of `get_extrato` at most 1776, so both
are copied with a NUL behind them, and the response has all of it
(`replies_framed`): behind the blank line are as many bytes as its Content-Length
says, the reply and a newline. -/
namespace Rinha.Server
open Library Request Client Database

variable {κ : Type*}

/-! ### The parts of a response -/

/-- What is behind the blank line. -/
def responseBody (response : List UInt8) : Option (List UInt8) := behind (bytes "\r\n\r\n") response

/-- The number that its Content-Length says. -/
def contentLength (response : List UInt8) : Option Nat :=
  (behind (bytes "Content-Length: ") response).bind scanLu

theorem responseBody_okText (n : Nat) (body : List UInt8) :
    responseBody (okText n body) = some (body ++ bytes "\n") := by
  have hmark : bytes "\r\n\r\n" = [13, 10, 13, 10] := by decide
  have hhead : Clear [13, 10, 13, 10] okHead = true := by decide +kernel
  have hdigits : Clear [13, 10, 13, 10] (decimal n) = true := by
    apply clear_of_not_mem
    intro hmem
    cases decimal_digits n 13 hmem
  unfold responseBody okText
  rw [hmark]
  simp only [List.append_assoc]
  rw [behind_append hhead]
  show behind [13, 10, 13, 10] (decimal n ++ _) = _
  rw [behind_append hdigits, behind_self (List.cons_ne_nil 13 _)]

theorem contentLength_okText {n : Nat} (hn : n ≤ uint64Max) (body : List UInt8) :
    contentLength (okText n body) = some n := by
  have hsplit : okHead = bytes "HTTP/1.1 200 OK\r\nConnection: close\r\nContent-type: text/plain\r\n" ++
      bytes "Content-Length: " := by decide +kernel
  have hclear : Clear (bytes "Content-Length: ")
      (bytes "HTTP/1.1 200 OK\r\nConnection: close\r\nContent-type: text/plain\r\n") = true := by decide +kernel
  have hmark : bytes "Content-Length: " ≠ [] := by decide
  have hnumeral : Numeral (decimal n ++ (bytes "\r\n\r\n" ++ (body ++ bytes "\n"))) [] [] (decimal n)
      (bytes "\r\n\r\n" ++ (body ++ bytes "\n")) n := by
    constructor
    · rfl
    · exact fun b hb => by cases hb
    · exact decimal_ne_nil n
    · exact decimal_digits n
    · intro b hb
      cases hb
      rfl
    · refine .inl ⟨.inl rfl, ?_⟩
      rw [number_decimal, Nat.min_eq_left hn]
  unfold contentLength okText
  rw [hsplit]
  simp only [List.append_assoc]
  rw [behind_append hclear, behind_self hmark]
  exact hnumeral.scanLu

/-! ### Framed replies -/

/-- What the function for the reply does first: its array, once the reply is copied to it. -/
def Handler.collect : Handler → List Poll → PGconn → Except Fault (Int × List UInt8 × PGconn)
  | endTransacaoAsync, polls, conn => dbEndTransacao polls 50 (List.replicate 50 0) conn
  | endExtratoAsync, polls, conn => dbEndExtrato polls (2000 - 1) (List.replicate 2000 0) conn

/-- The reply is copied as it is, to an array that has a NUL behind it; the response
is not cut; and its Content-Length is the number of bytes behind the blank line,
which are the reply and a newline. -/
structure Framed (handler : Handler) (polls : List Poll) (conn : PGconn) (reqres : ReqRes κ)
    (reply : List UInt8) : Prop where
  short : reply.length < handler.room
  copied : ∃ db_buffer, handler.collect polls conn = .ok (reply.length, db_buffer, none) ∧
    db_buffer.length = handler.room ∧ db_buffer[reply.length]? = some 0 ∧ cstr db_buffer = reply
  fits : (okText (reply.length + 1) reply).length < maxReqRespSize
  answered : ∃ reqres', handler.call polls reqres conn = .ok (reqres', none) ∧
    responseText reqres'.buffer = okText (reply.length + 1) reply ∧
    responseBody (responseText reqres'.buffer) = some (reply ++ bytes "\n") ∧
    contentLength (responseText reqres'.buffer) = some (reply ++ bytes "\n").length

theorem Handler.collect_reads (handler : Handler) {polls : List Poll} {conn : PGconn} {text : List UInt8}
    (h : waitDb polls = .ok 0) (hread : reading handler.size (pqGetResult conn).1 = .value text) :
    handler.collect polls conn = .ok (text.length, memcpy (List.replicate handler.room 0) text, none) := by
  cases handler with
  | endTransacaoAsync =>
    simp only [Handler.size] at hread
    simp only [Handler.collect, dbEndTransacao, dbEnd, h, dbGetResultTransacao, dbGetResult_reading, hread,
      clearDbconn_idle]
    rfl
  | endExtratoAsync =>
    simp only [Handler.size] at hread
    simp only [Handler.collect, dbEndExtrato, dbEnd, h, dbGetResultExtrato, dbGetResult_reading, hread,
      clearDbconn_idle]
    rfl

theorem reading_oneValue {size : Nat} {reply : List UInt8} (h : Text size reply) :
    reading size (some (oneValue (some reply))) = .value reply := by
  refine reading_isValue_iff.mpr ⟨_, reply, rfl, rfl, ⟨rfl, rfl, reply, rfl, ?_⟩, ?_⟩
  · exact (cstr_eq_self h.noNul).symm
  · exact (List.take_of_length_le h.length).symm

/-- A text that is shorter than the array is framed. -/
theorem framed_of_text {k : Nat} {handler : Handler} {polls : List Poll} {conn : PGconn} {reply : List UInt8}
    (htext : Text k reply) (hk : k < handler.room)
    (hcompletes : Completes polls conn (oneValue (some reply))) (reqres : ReqRes κ) :
    Framed handler polls conn reqres reply := by
  obtain ⟨hends, hres, _⟩ := hcompletes
  have hwait : waitDb polls = .ok 0 := (waitDb_iff polls).mpr hends
  have hshort : reply.length < handler.room := lt_of_le_of_lt htext.length hk
  have hlong : reply.length ≤ 2000 := (Nat.le_of_lt hshort).trans handler.room_le
  have hread : reading handler.size (pqGetResult conn).1 = .value reply := by
    rw [hres]
    exact reading_oneValue ⟨Handler.le_size hshort, htext.noNul⟩
  constructor
  · exact hshort
  · refine ⟨_, handler.collect_reads hwait hread, ?_, ?_, (memcpy_zeros htext.ne_zero _).2 hshort⟩
    · rw [length_memcpy (by rw [List.length_replicate]; exact Nat.le_of_lt hshort), List.length_replicate]
    · rw [getElem?_memcpy le_rfl, List.getElem?_replicate_of_lt hshort]
  · have hlen := okText_length (n := reply.length + 1) (by omega) reply
    refine lt_of_le_of_lt hlen ?_
    unfold maxReqRespSize
    omega
  · have hcall : handler.call polls reqres conn = .ok (reqres.okReply reply, none) := by
      rw [handler_reads handler hwait, hread]
      exact if_pos hshort
    have hresponse := responseText_okReply reqres htext.ne_zero hlong
    refine ⟨_, hcall, hresponse, ?_, ?_⟩
    · rw [hresponse]
      exact responseBody_okText (reply.length + 1) reply
    · rw [hresponse, List.length_append]
      exact contentLength_okText (n := reply.length + 1) (by unfold uint64Max; omega) reply

/-- For every client's row and every ten transactions or fewer, whatever their bytes
are: the reply of `push_credito` and `push_debito` and that of `get_extrato` are
copied whole, and framed. -/
theorem replies_framed (polls : List Poll) (conn : PGconn) (reqres : ReqRes κ) :
    (∀ limite saldo, Completes polls conn (oneValue (some (rowJson limite saldo))) →
      Framed .endTransacaoAsync polls conn reqres (rowJson limite saldo)) ∧
    ∀ sld (trs : List Tr), trs.length ≤ 10 → Completes polls conn (oneValue (some (extratoJson sld trs))) →
      Framed .endExtratoAsync polls conn reqres (extratoJson sld trs) := by
  constructor
  · intro limite saldo hcompletes
    exact framed_of_text (rowJson_text limite saldo) (by decide) hcompletes reqres
  · intro sld trs htrs hcompletes
    exact framed_of_text (extratoJson_text sld htrs) (by decide) hcompletes reqres

/-- Ten transactions of ten control characters, and numbers of eleven digits. -/
def fullTr : Tr :=
  ⟨⟨-2147483648, by decide, by decide⟩, 100, List.replicate 10 1, ⟨294276, false, 12, 31, 23, 59, 59, 999999⟩,
    .inr rfl, by decide⟩

def fullSld : Sld := ⟨fullTr.valor, fullTr.realizada_em, fullTr.valor⟩

/-- They are framed. -/
theorem replies_framed_full :
    Framed .endTransacaoAsync [⟨1, true⟩, ⟨1, false⟩]
      (some ⟨0, .pushDebito 1 1 (bytes "a"), [oneValue (some (rowJson fullTr.valor fullTr.valor))]⟩)
      (ReqRes.zero : ReqRes Unit) (rowJson fullTr.valor fullTr.valor) ∧
    Framed .endExtratoAsync [⟨1, true⟩, ⟨1, false⟩]
      (some ⟨0, .getExtrato 1, [oneValue (some (extratoJson (some fullSld) (List.replicate 10 fullTr)))]⟩)
      (ReqRes.zero : ReqRes Unit) (extratoJson (some fullSld) (List.replicate 10 fullTr)) := by
  have hends : Ends [⟨1, true⟩, ⟨1, false⟩] := (waitDb_iff _).mp rfl
  constructor
  · exact (replies_framed _ _ _).1 fullTr.valor fullTr.valor ⟨hends, rfl, rfl⟩
  · exact (replies_framed _ _ _).2 (some fullSld) (List.replicate 10 fullTr) (by decide) ⟨hends, rfl, rfl⟩

/-- The tables' own extratos are framed too: a character of a description is a byte or
is not escaped. -/
theorem extratos_framed (timestamp : Nat → Timestamp) (t : Tables) (id : Integer) (now : Nat)
    (rows : List Database.Transacao) {polls : List Poll} {conn : PGconn} (reqres : ReqRes κ)
    (hcompletes : Completes polls conn (oneValue (some ((Database.getExtrato t id now rows).json timestamp)))) :
    Framed .endExtratoAsync polls conn reqres ((Database.getExtrato t id now rows).json timestamp) :=
  framed_of_text (getExtrato_text timestamp t id now rows) (by decide) hcompletes reqres

end Rinha.Server
