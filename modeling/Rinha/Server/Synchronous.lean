import Rinha.Client.Exec
import Rinha.Server.Outcomes

/-! The two ways to use the database.

`db_push_transacao` and `db_get_extrato` do in one call what the server does with
a start and an end. They agree when the connection is there until the first result
has come, and that result is read like the last. `wait_db` is where they part: both
ends return -1 when it fails and leave the connection as it is, and -1 is
`TRANSACAO_INVALID`. -/
namespace Rinha.Server
open Library Request Client

/-- A start and, if it succeeds, an end; a start that fails is an error of the database. -/
def startAndEnd (start : Sending → PGconn → Int × PGconn)
    (finish : List Poll → Nat → List UInt8 → PGconn → Except Fault (Int × List UInt8 × PGconn)) (dbError : Int)
    (o : Sending) (polls : List Poll) (size : Nat) (buffer : List UInt8) (conn : PGconn) :
    Except Fault (Int × List UInt8 × PGconn) :=
  let (ret, conn) := start o conn
  if ret < 0 then .ok (dbError, buffer, conn) else finish polls size buffer conn

/-- The two functions for a transaction return the code, the bytes and the
connection of `db_push_transacao`. -/
def TransacaoAgrees (t : Transacao) (o : Sending) (polls : List Poll) (size : Nat) (buffer : List UInt8)
    (conn : PGconn) : Prop :=
  startAndEnd (dbStartTransacao t) dbEndTransacao transacaoDbError o polls size buffer conn =
    .ok (dbPushTransacao t o size buffer conn)

/-- The two functions for an extrato return those of `db_get_extrato`. -/
def ExtratoAgrees (id : Nat) (o : Sending) (polls : List Poll) (size : Nat) (buffer : List UInt8)
    (conn : PGconn) : Prop :=
  startAndEnd (dbStartExtrato id) dbEndExtrato (-1) o polls size buffer conn =
    .ok (dbGetExtrato id o size buffer conn)

/-- The first result there is after the start: the new command's, or that of a
command that was in progress. -/
def firstResult (o : Sending) : PGconn → Option PGresult
  | some command => command.results.head?
  | none => if o.sent then o.results.head? else none

/-- The waiting fails: after polls that find the connection busy comes one in which
no input can be consumed. -/
def Breaks (polls : List Poll) : Prop :=
  ∃ busy p rest, polls = busy ++ p :: rest ∧ p.consumeInput ≠ 1 ∧ ∀ q ∈ busy, q = ⟨1, true⟩

theorem waitDb_breaks_iff (polls : List Poll) : waitDb polls = .ok (-1) ↔ Breaks polls := by
  induction polls with
  | nil =>
    refine ⟨fun h => (by cases h), fun h => ?_⟩
    obtain ⟨busy, p, rest, hpolls, _⟩ := h
    cases busy <;> cases hpolls
  | cons p rest ih =>
    obtain ⟨consumed, isBusy⟩ := p
    rw [waitDb]
    by_cases hone : consumed = 1
    · rw [if_neg (not_not_intro hone)]
      subst hone
      have hcons : Breaks (⟨1, isBusy⟩ :: rest) ↔ isBusy = true ∧ Breaks rest := by
        constructor
        · intro h
          obtain ⟨busy, p, later, hpolls, hp, hbusy⟩ := h
          cases busy with
          | nil =>
            cases hpolls
            exact absurd rfl hp
          | cons q busy =>
            obtain ⟨hq, hrest⟩ := List.cons.inj hpolls
            rw [hbusy q (List.mem_cons_self ..)] at hq
            cases hq
            exact ⟨rfl, busy, p, later, hrest, hp, fun r hr => hbusy r (List.mem_cons_of_mem q hr)⟩
        · intro h
          obtain ⟨rfl, busy, p, later, rfl, hp, hbusy⟩ := h
          exact ⟨⟨1, true⟩ :: busy, p, later, rfl, hp, by simpa using hbusy⟩
      rw [hcons]
      cases isBusy with
      | true =>
        rw [if_pos rfl, ih]
        exact (and_iff_right rfl).symm
      | false =>
        rw [if_neg (by decide)]
        exact iff_of_false (by decide) (fun h => by cases h.1)
    · rw [if_pos hone]
      exact iff_of_true rfl ⟨[], ⟨consumed, isBusy⟩, rest, rfl, hone, fun r hr => (by cases hr)⟩

/-! ### What the two return -/

theorem firstResult_eq (o : Sending) (query : Query) (conn : PGconn) :
    (pqGetResult (sendOn o query conn)).1 = firstResult o conn := by
  unfold sendOn firstResult
  have hhead : ∀ (tag : Nat) (query : Query) (results : List PGresult),
      (pqGetResult (some ⟨tag, query, results⟩)).1 = results.head? := by
    intro tag query results
    cases results <;> rfl
  cases conn with
  | some command => exact hhead command.tag command.query command.results
  | none =>
    cases o.sent with
    | true => exact hhead o.tag query o.results
    | false => rfl

theorem sendOn_none_iff {o : Sending} {query : Query} {conn : PGconn} :
    sendOn o query conn = none ↔ conn = none ∧ o.sent = false := by
  unfold sendOn
  cases conn with
  | some command => simp
  | none => cases o.sent <;> simp

/-- A start does not fail, so the end is what counts. -/
theorem startAndEnd_eq (query : Query) (isNull failed dbError : Int) (o : Sending) (polls : List Poll)
    (size : Nat) (buffer : List UInt8) (conn : PGconn) :
    startAndEnd (dbStart query) (dbEnd (dbGetResult isNull failed)) dbError o polls size buffer conn =
      match waitDb polls with
      | .error f => .error f
      | .ok ret =>
        if ret < 0 then .ok (-1, buffer, sendOn o query conn)
        else
          .ok (((reading size (firstResult o conn)).report isNull failed buffer).1,
            ((reading size (firstResult o conn)).report isNull failed buffer).2, none) := by
  have hconn : (dbStart query o conn).2 = sendOn o query conn := dbStart_conn query o conn
  unfold startAndEnd
  cases hwait : waitDb polls with
  | error f => simp only [dbStart_nonneg, if_false, hconn, dbEnd, hwait]
  | ok ret =>
    simp only [dbStart_nonneg, if_false, hconn, dbEnd, hwait, clearDbconn_idle, firstResult_eq,
      dbGetResult_reading]

/-- When the wait succeeds they agree on what they report of the first result and
the last; when it fails, on -1 and an idle connection. -/
theorem startAndEnd_agrees (query : Query) (isNull failed dbError : Int) (o : Sending) (polls : List Poll)
    (size : Nat) (buffer : List UInt8) (conn : PGconn) :
    startAndEnd (dbStart query) (dbEnd (dbGetResult isNull failed)) dbError o polls size buffer conn =
        .ok (dbExec (dbGetResult isNull failed) query o size buffer conn) ↔
      (Ends polls ∧ (reading size (firstResult o conn)).report isNull failed buffer =
          (reading size (lastResult o)).report isNull failed buffer) ∨
        (Breaks polls ∧ failed = -1 ∧ conn = none ∧ o.sent = false) := by
  rw [startAndEnd_eq, dbExec_eq, dbGetResult_reading, ← waitDb_iff, ← waitDb_breaks_iff]
  cases hwait : waitDb polls with
  | error f => simp
  | ok ret =>
    rcases waitDb_cases hwait with rfl | rfl
    · have hunsent : o.sent = false → reading size (lastResult o) = .failed := by
        intro hsent
        rw [lastResult, hsent]
        rfl
      simp only [show (-1 : Int) < 0 by decide, if_true, Except.ok.injEq, Prod.mk.injEq, sendOn_none_iff]
      constructor
      · intro h
        obtain ⟨hcode, _, hconn, hsent⟩ := h
        rw [hunsent hsent] at hcode
        exact .inr ⟨trivial, hcode.symm, hconn, hsent⟩
      · intro h
        rcases h with ⟨hends, _⟩ | ⟨_, hfailed, hconn, hsent⟩
        · exact absurd hends (by decide)
        · rw [hunsent hsent]
          exact ⟨hfailed.symm, rfl, hconn, hsent⟩
    · simp only [show ¬ (0 : Int) < 0 by decide, if_false, Except.ok.injEq, Prod.mk.injEq, and_true]
      constructor
      · intro h
        exact .inl ⟨trivial, Prod.ext h.1 h.2⟩
      · intro h
        rcases h with ⟨_, heq⟩ | ⟨hbreaks, _⟩
        · exact ⟨congrArg Prod.fst heq, congrArg Prod.snd heq⟩
        · exact absurd hbreaks (by decide)

/-- For every transaction, id, connection and everything the database can do: the
functions for a transaction agree with `db_push_transacao` exactly when the wait
succeeds and the first result is read like the last; those for an extrato agree with
`db_get_extrato` then too, also where one is a NULL and the other a failure, and
when the wait fails on an idle connection to which nothing was sent. -/
theorem synchronous_iff (t : Transacao) (id : Nat) (o : Sending) (polls : List Poll) (size : Nat)
    (buffer : List UInt8) (conn : PGconn) :
    (TransacaoAgrees t o polls size buffer conn ↔
        Ends polls ∧ reading size (firstResult o conn) = reading size (lastResult o)) ∧
      (ExtratoAgrees id o polls size buffer conn ↔
        (Ends polls ∧ (reading size (firstResult o conn)).merged = (reading size (lastResult o)).merged) ∨
          (Breaks polls ∧ conn = none ∧ o.sent = false)) := by
  constructor
  · have hagrees := startAndEnd_agrees (.ofTransacao t) transacaoInvalid transacaoDbError transacaoDbError o polls
      size buffer conn
    constructor
    · intro h
      rcases hagrees.mp h with ⟨hends, hreport⟩ | ⟨_, hcode, _⟩
      · exact ⟨hends, report_transacao_inj hreport⟩
      · exact absurd hcode (by decide)
    · intro h
      exact hagrees.mpr (.inl ⟨h.1, by rw [h.2]⟩)
  · have hagrees := startAndEnd_agrees (.getExtrato id) (-1) (-1) (-1) o polls size buffer conn
    rw [report_extrato_iff] at hagrees
    constructor
    · intro h
      rcases hagrees.mp h with hsame | ⟨hbreaks, _, hidle⟩
      · exact .inl hsame
      · exact .inr ⟨hbreaks, hidle⟩
    · intro h
      rcases h with hsame | ⟨hbreaks, hidle⟩
      · exact hagrees.mpr (.inl hsame)
      · exact hagrees.mpr (.inr ⟨hbreaks, rfl, hidle⟩)

/-! ### A connection that is lost -/

/-- The result libpq makes of a connection that was lost: an error status, and nothing else. -/
def lostResult : PGresult := Database.raised

/-- A credit of 10 to client 1. -/
def creditoDez : Transacao := ⟨1, 10, 99, bytes "dez"⟩

/-- The command of a credit is sent, and the connection lost before its result: the
synchronous function tells of an error of the database, and the other two of a
transaction the database refused, with the command still in progress. -/
theorem lost_is_refused :
    ¬ TransacaoAgrees creditoDez ⟨0, true, [lostResult]⟩ [⟨0, false⟩] 50 (List.replicate 50 0) none ∧
      dbPushTransacao creditoDez ⟨0, true, [lostResult]⟩ 50 (List.replicate 50 0) none =
        (transacaoDbError, List.replicate 50 0, none) ∧
      ∃ command, startAndEnd (dbStartTransacao creditoDez) dbEndTransacao transacaoDbError
        ⟨0, true, [lostResult]⟩ [⟨0, false⟩] 50 (List.replicate 50 0) none =
          .ok (transacaoInvalid, List.replicate 50 0, some command) := by
  have hasync : startAndEnd (dbStartTransacao creditoDez) dbEndTransacao transacaoDbError
      ⟨0, true, [lostResult]⟩ [⟨0, false⟩] 50 (List.replicate 50 0) none =
        .ok (transacaoInvalid, List.replicate 50 0, some ⟨0, .ofTransacao creditoDez, [lostResult]⟩) := rfl
  have hsync : dbPushTransacao creditoDez ⟨0, true, [lostResult]⟩ 50 (List.replicate 50 0) none =
      (transacaoDbError, List.replicate 50 0, none) := rfl
  refine ⟨fun h => ?_, hsync, _, hasync⟩
  rw [TransacaoAgrees, hasync, hsync] at h
  cases h

end Rinha.Server
