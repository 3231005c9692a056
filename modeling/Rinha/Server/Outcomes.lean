import Rinha.Client.Exec
import Rinha.Database.Commands
import Rinha.Database.Limits
import Rinha.Server.ControllerProofs

/-! What a client is told of its transaction.

`wait_db` reports a failed connection with -1, which is also the code for a
transaction the database refused; and a result without rows has no value, which
`PQgetisnull` does not tell from a NULL. So the answer is the outcome exactly
when the waiting ends, a missing value is a NULL in a row, and a value fits the
buffer it is copied to (`truthful_iff`). -/
namespace Rinha.Server
open Library Request Client Database

variable {κ : Type*}

/-! ### The text of a 200 -/

theorem decimalInt_ne_zero (z : Int) : ∀ b ∈ decimalInt z, b ≠ 0 := by
  have hnat : ∀ n, ∀ b ∈ decimal n, b ≠ 0 := by
    rintro n _ hb rfl
    cases decimal_digits n 0 hb
  cases z with
  | ofNat n => exact hnat n
  | negSucc n =>
    intro b hb
    rcases List.mem_cons.mp hb with rfl | hb
    · decide
    · exact hnat (n + 1) b hb

theorem okText_ne_zero (n : Int) {body : List UInt8} (hbody : ∀ b ∈ body, b ≠ 0) :
    ∀ b ∈ okText n body, b ≠ 0 := by
  obtain ⟨_, _, haround⟩ := okHead_text
  intro b hb
  simp only [okText, List.mem_append] at hb haround
  rcases hb with (((hb | hb) | hb) | hb) | hb
  · exact haround b (.inl hb)
  · exact decimalInt_ne_zero n b hb
  · exact haround b (.inr (.inl hb))
  · exact hbody b hb
  · exact haround b (.inr (.inr hb))

theorem length_okText (n : Int) (body : List UInt8) :
    (okText n body).length = 83 + (decimalInt n).length + body.length := by
  have hblank : (bytes "\r\n\r\n").length = 4 := by decide
  have hline : (bytes "\n").length = 1 := by decide
  unfold okText
  simp only [List.length_append, okHead_text.1, hblank, hline]
  omega

theorem okText_length {n : Nat} (hn : n < 10 ^ 10) (body : List UInt8) :
    (okText n body).length ≤ 110 + body.length := by
  have hnumber := decimalInt_length (z := (n : Int)) (k := 10) (by decide) hn
  rw [length_okText]
  omega

/-- A reply that is not too long is in the response as it is. -/
theorem okReply_text (reqres : ReqRes κ) {text : List UInt8} (h0 : ∀ b ∈ text, b ≠ 0)
    (hlen : text.length ≤ 2000) :
    cstr (reqres.okReply text).buffer = okText (text.length + 1) text := by
  have htext := okText_length (n := text.length + 1) (by omega) text
  have hfits : (okText ((text.length : Int) + 1) text).length ≤ maxReqRespSize - 1 :=
    le_trans htext (by unfold maxReqRespSize; omega)
  unfold ReqRes.okReply snprintf memcpy
  simp only [List.take_of_length_le hfits, List.append_assoc, List.cons_append, List.nil_append]
  exact cstr_append_zero (okText_ne_zero _ h0) _

/-! ### The outcome of a transaction -/

/-- The waiting ends: after polls that find the connection busy comes one that
does not, and input is consumed in each. -/
def Ends (polls : List Poll) : Prop :=
  ∃ busy rest, polls = busy ++ ⟨1, false⟩ :: rest ∧ ∀ p ∈ busy, p = ⟨1, true⟩

theorem waitDb_iff (polls : List Poll) : waitDb polls = .ok 0 ↔ Ends polls := by
  induction polls with
  | nil =>
    refine ⟨fun h => (by cases h), fun h => ?_⟩
    obtain ⟨busy, rest, hpolls, _⟩ := h
    cases busy <;> cases hpolls
  | cons p rest ih =>
    obtain ⟨consumed, isBusy⟩ := p
    rw [waitDb]
    by_cases hone : consumed = 1
    · rw [if_neg (not_not_intro hone)]
      subst hone
      cases isBusy with
      | true =>
        rw [if_pos rfl, ih]
        constructor
        · intro h
          obtain ⟨busy, later, rfl, hbusy⟩ := h
          exact ⟨⟨1, true⟩ :: busy, later, rfl, by simpa using hbusy⟩
        · intro h
          obtain ⟨busy, later, hpolls, hbusy⟩ := h
          cases busy with
          | nil => cases hpolls
          | cons q busy =>
            obtain ⟨-, hrest⟩ := List.cons.inj hpolls
            exact ⟨busy, later, hrest, fun p hp => hbusy p (List.mem_cons_of_mem q hp)⟩
      | false =>
        rw [if_neg (by decide)]
        exact iff_of_true rfl ⟨[], rest, rfl, fun p hp => by cases hp⟩
    · rw [if_pos hone]
      refine ⟨fun h => (by cases h), fun h => ?_⟩
      obtain ⟨busy, later, hpolls, hbusy⟩ := h
      cases busy with
      | nil =>
        cases hpolls
        exact absurd rfl hone
      | cons q busy =>
        obtain ⟨hq, -⟩ := List.cons.inj hpolls
        rw [hbusy q (List.mem_cons_self ..)] at hq
        cases hq
        exact absurd rfl hone

/-- The query completed with rows, and this is what there is of them. -/
def Completes (polls : List Poll) (conn : PGconn) (res : PGresult) : Prop :=
  Ends polls ∧ (pqGetResult conn).1 = some res ∧ res.tuplesOk = true

/-- The function's value is NULL: there is a row and a column, with no value. -/
def IsNull (res : PGresult) : Prop := 0 < res.ntuples ∧ 0 < res.nfields ∧ res.value = none

/-- The result is one row and one column with a value, which is this C string. -/
def IsValue (res : PGresult) (text : List UInt8) : Prop :=
  res.ntuples = 1 ∧ res.nfields = 1 ∧ ∃ value, res.value = some value ∧ text = cstr value

theorem IsValue.ne_zero {res : PGresult} {reply : List UInt8} (h : IsValue res reply) : ∀ b ∈ reply, b ≠ 0 := by
  obtain ⟨_, _, value, _, rfl⟩ := h
  exact cstr_ne_zero

theorem IsValue.unique {res : PGresult} {reply reply' : List UInt8} (h : IsValue res reply)
    (h' : IsValue res reply') : reply = reply' := by
  obtain ⟨_, _, value, hvalue, rfl⟩ := h
  obtain ⟨_, _, value', hvalue', rfl⟩ := h'
  cases hvalue.symm.trans hvalue'
  rfl

theorem IsValue.not_null {res : PGresult} {text : List UInt8} (h : IsValue res text) : ¬ IsNull res := by
  obtain ⟨_, _, value, hvalue, _⟩ := h
  intro hnull
  cases hvalue.symm.trans hnull.2.2

theorem reading_isValue_iff {size : Nat} {result : Option PGresult} {text : List UInt8} :
    reading size result = .value text ↔ ∃ res reply, result = some res ∧ res.tuplesOk = true ∧
      IsValue res reply ∧ text = reply.take size := by
  rw [reading_value_iff]
  constructor
  · intro h
    obtain ⟨res, value, hres, hok, hrows, hcols, hvalue, htext⟩ := h
    exact ⟨res, cstr value, hres, hok, ⟨hrows, hcols, value, hvalue, rfl⟩, htext⟩
  · intro h
    obtain ⟨res, _, hres, hok, ⟨hrows, hcols, value, hvalue, rfl⟩, htext⟩ := h
    exact ⟨res, value, hres, hok, hrows, hcols, hvalue, htext⟩

/-- The slot is answered with the outcome: 422 exactly for a NULL, 200 exactly for a
value, which is in the response, and 500 exactly for anything else. -/
structure Tells (polls : List Poll) (conn : PGconn) (reqres : ReqRes κ) : Prop where
  rejected : status reqres.buffer = bytes "422" ↔ ∃ res, Completes polls conn res ∧ IsNull res
  done : status reqres.buffer = bytes "200" ↔ ∃ res text, Completes polls conn res ∧ IsValue res text
  value : ∀ res text, Completes polls conn res → IsValue res text →
    cstr reqres.buffer = okText (text.length + 1) text
  failed : status reqres.buffer = bytes "500" ↔
    ¬ ∃ res, Completes polls conn res ∧ (IsNull res ∨ ∃ text, IsValue res text)

/-- `end_transacao_async` answers, and with the outcome. -/
def Truthful (polls : List Poll) (conn : PGconn) (reqres : ReqRes κ) : Prop :=
  ∃ reqres' conn', endTransacaoAsync polls reqres conn = .ok (reqres', conn') ∧ Tells polls conn reqres'

/-! ### What is answered -/

/-- A failed wait is answered as a refused transaction is. -/
theorem endTransacaoAsync_waitFails {polls : List Poll} (h : waitDb polls = .ok (-1)) (reqres : ReqRes κ)
    (conn : PGconn) :
    endTransacaoAsync polls reqres conn = .ok (reqres.setStaticResponse (unprocessable "19"), conn) :=
  handler_waitFails .endTransacaoAsync h reqres conn

/-- When the waiting ends, the result is read. -/
theorem endTransacaoAsync_ends {polls : List Poll} (h : waitDb polls = .ok 0) (reqres : ReqRes κ)
    (conn : PGconn) :
    endTransacaoAsync polls reqres conn =
      match (pqGetResult conn).1 with
      | none => .ok (reqres.setStaticResponse (internalerror "15"), none)
      | some res =>
        if res.tuplesOk = false then .ok (reqres.setStaticResponse (internalerror "15"), none)
        else
          match res.value with
          | none => .ok (reqres.setStaticResponse (unprocessable "19"), none)
          | some value =>
            if res.ntuples ≠ 1 ∨ res.nfields ≠ 1 then .ok (reqres.setStaticResponse (internalerror "15"), none)
            else if (cstr value).length < 50 then .ok (reqres.okReply (cstr value), none)
            else .error .overread := by
  refine (handler_reads .endTransacaoAsync h reqres conn).trans ?_
  simp only [Handler.size, Handler.room]
  unfold reading
  cases (pqGetResult conn).1 with
  | none => rfl
  | some res =>
    simp only
    cases res.tuplesOk with
    | false => rfl
    | true =>
      simp only [Bool.not_true, Bool.false_eq_true, if_false, Bool.true_eq_false]
      cases res.value with
      | none => rfl
      | some value =>
        simp only
        by_cases hone : res.ntuples = 1 ∧ res.nfields = 1
        · have hnot : ¬ (res.ntuples ≠ 1 ∨ res.nfields ≠ 1) := fun h => h.elim (absurd hone.1) (absurd hone.2)
          rw [if_pos hone, if_neg hnot]
          by_cases hshort : (cstr value).length < 50
          · rw [List.take_of_length_le (Nat.le_of_lt hshort)]
            rfl
          · have hfull : ¬ ((cstr value).take 50).length < 50 := by
              rw [List.length_take]
              omega
            rw [if_neg hshort]
            exact if_neg hfull
        · rw [if_neg hone, if_pos (not_and_or.mp hone)]
          rfl

/-! ### When it is the outcome -/

theorem Completes.unique {polls : List Poll} {conn : PGconn} {res res' : PGresult}
    (h : Completes polls conn res) (hres : (pqGetResult conn).1 = some res') : res' = res :=
  Option.some.inj (hres.symm.trans h.2.1)

/-- A slot that is answered with a failure tells of nothing but failures. -/
theorem tells_failed {polls : List Poll} {conn : PGconn} (reqres : ReqRes κ)
    (h : ∀ res, Completes polls conn res → ¬ IsNull res ∧ ∀ text, ¬ IsValue res text) :
    Tells polls conn (reqres.setStaticResponse (internalerror "15")) := by
  have h500 := internalerror_status reqres
  constructor
  · rw [h500]
    refine iff_of_false (by decide) ?_
    intro hex
    obtain ⟨res, hres, hnull⟩ := hex
    exact (h res hres).1 hnull
  · rw [h500]
    refine iff_of_false (by decide) ?_
    intro hex
    obtain ⟨res, text, hres, hvalue⟩ := hex
    exact (h res hres).2 text hvalue
  · intro res text hres hvalue
    exact absurd hvalue ((h res hres).2 text)
  · refine iff_of_true h500 ?_
    intro hex
    obtain ⟨res, hres, hnull | ⟨text, hvalue⟩⟩ := hex
    · exact (h res hres).1 hnull
    · exact (h res hres).2 text hvalue

/-- A 422 tells of a NULL. -/
theorem tells_rejected {polls : List Poll} {conn : PGconn} (reqres : ReqRes κ) :
    Tells polls conn (reqres.setStaticResponse (unprocessable "19")) ↔
      ∃ res, Completes polls conn res ∧ IsNull res := by
  have h422 := unprocessable_status reqres
  constructor
  · intro h
    exact h.rejected.mp h422
  · intro hex
    obtain ⟨res, hres, hnull⟩ := hex
    have hnot : ∀ res' text, Completes polls conn res' → ¬ IsValue res' text := by
      intro res' text hres' hvalue
      obtain rfl := hres.unique hres'.2.1
      exact hvalue.not_null hnull
    constructor
    · exact iff_of_true h422 ⟨res, hres, hnull⟩
    · rw [h422]
      refine iff_of_false (by decide) ?_
      intro h
      obtain ⟨res', text, hres', hvalue⟩ := h
      exact hnot res' text hres' hvalue
    · intro res' text hres' hvalue
      exact absurd hvalue (hnot res' text hres')
    · rw [h422]
      refine iff_of_false (by decide) ?_
      intro h
      exact h ⟨res, hres, .inl hnull⟩

/-- A 200 with a value tells of it. -/
theorem tells_done {polls : List Poll} {conn : PGconn} {res : PGresult} {text : List UInt8}
    (reqres : ReqRes κ) (hres : Completes polls conn res) (hvalue : IsValue res text)
    (hshort : text.length < 50) : Tells polls conn (reqres.okReply text) := by
  have h200 := okReply_status reqres text
  have hnot : ∀ res', Completes polls conn res' → ¬ IsNull res' := by
    intro res' hres' hnull
    obtain rfl := hres.unique hres'.2.1
    exact hvalue.not_null hnull
  constructor
  · rw [h200]
    refine iff_of_false (by decide) ?_
    intro h
    obtain ⟨res', hres', hnull⟩ := h
    exact hnot res' hres' hnull
  · exact iff_of_true h200 ⟨res, text, hres, hvalue⟩
  · intro res' text' hres' hvalue'
    obtain rfl := hres.unique hres'.2.1
    obtain rfl := hvalue.unique hvalue'
    exact okReply_text reqres hvalue.ne_zero (by omega)
  · rw [h200]
    refine iff_of_false (by decide) ?_
    intro h
    exact h ⟨res, hres, .inr ⟨text, hvalue⟩⟩

/-- For every outcome of the exchange: `end_transacao_async` answers with it exactly
when no `PQconsumeInput` fails before the result is there, a result without a value
has a row and a column, and the one value of a result is shorter than 50. -/
theorem truthful_iff (polls : List Poll) (conn : PGconn) (reqres : ReqRes κ) :
    Truthful polls conn reqres ↔ Ends polls ∧
      ∀ res, (pqGetResult conn).1 = some res → res.tuplesOk = true →
        (res.value = none → IsNull res) ∧ ∀ text, IsValue res text → text.length < 50 := by
  unfold Truthful
  by_cases hends : Ends polls
  · simp only [hends, true_and, endTransacaoAsync_ends ((waitDb_iff polls).mpr hends)]
    cases hres : (pqGetResult conn).1 with
    | none =>
      refine iff_of_true ⟨_, _, rfl, tells_failed reqres fun res h => ?_⟩ fun res h => by cases h
      cases hres.symm.trans h.2.1
    | some res =>
      simp only [Option.some.injEq, forall_eq']
      cases hok : res.tuplesOk with
      | false =>
        refine iff_of_true ⟨_, _, rfl, tells_failed reqres fun res' h => ?_⟩ fun h => by cases h
        obtain rfl := h.unique hres
        cases hok.symm.trans h.2.2
      | true =>
        have hcompletes : Completes polls conn res := ⟨hends, hres, hok⟩
        simp only [Bool.true_eq_false, if_false, forall_const]
        cases hvalue : res.value with
        | none =>
          simp only [Except.ok.injEq, Prod.mk.injEq]
          constructor
          · intro h
            obtain ⟨_, _, ⟨rfl, rfl⟩, htells⟩ := h
            obtain ⟨res', hres', hnull⟩ := (tells_rejected reqres).mp htells
            obtain rfl := hres'.unique hres
            exact ⟨fun _ => hnull, fun text htext => absurd hnull htext.not_null⟩
          · intro h
            exact ⟨_, _, ⟨rfl, rfl⟩, (tells_rejected reqres).mpr ⟨res, hcompletes, h.1 trivial⟩⟩
        | some value =>
          have hnotNull : ¬ IsNull res := fun h => by cases hvalue.symm.trans h.2.2
          simp only [reduceCtorEq, false_implies, true_and]
          by_cases hone : res.ntuples = 1 ∧ res.nfields = 1
          · have hgood : ¬ (res.ntuples ≠ 1 ∨ res.nfields ≠ 1) := by
              rw [not_or, not_not, not_not]
              exact hone
            have hisValue : IsValue res (cstr value) := ⟨hone.1, hone.2, value, hvalue, rfl⟩
            rw [if_neg hgood]
            by_cases hshort : (cstr value).length < 50
            · rw [if_pos hshort]
              refine iff_of_true ⟨_, _, rfl, tells_done reqres hcompletes hisValue hshort⟩ fun text h => ?_
              rw [h.unique hisValue]
              exact hshort
            · rw [if_neg hshort]
              constructor
              · intro h
                obtain ⟨_, _, herror, _⟩ := h
                cases herror
              · intro h
                exact absurd (h _ hisValue) hshort
          · have hbad : res.ntuples ≠ 1 ∨ res.nfields ≠ 1 := by omega
            have hnotValue : ∀ text, ¬ IsValue res text := fun text h => hone ⟨h.1, h.2.1⟩
            rw [if_pos hbad]
            refine iff_of_true ⟨_, _, rfl, tells_failed reqres fun res' h => ?_⟩ fun text h => ?_
            · obtain rfl := h.unique hres
              exact ⟨hnotNull, hnotValue⟩
            · exact absurd h (hnotValue text)
  · -- Either the waiting does not end, or it fails and 422 is answered for no NULL.
    refine iff_of_false (fun h => ?_) fun h => hends h.1
    obtain ⟨reqres', conn', hcall, htells⟩ := h
    have hnone : ¬ ∃ res, Completes polls conn res ∧ IsNull res := by
      intro hex
      obtain ⟨res, hres, _⟩ := hex
      exact hends hres.1
    replace hcall : Handler.call .endTransacaoAsync polls reqres conn = .ok (reqres', conn') := hcall
    rcases handler_cases hcall with ⟨hwait, _, _⟩ | ⟨hwait, _, _⟩
    · rw [handler_waitFails .endTransacaoAsync hwait] at hcall
      cases hcall
      exact hnone ((tells_rejected reqres).mp htells)
    · exact hends ((waitDb_iff polls).mp hwait)

/-- The connection is lost while a debit of 1 is in progress, which the database commits. -/
def lostDebit : PGconn :=
  some ⟨0, .pushDebito 1 1 (bytes "a"), [oneValue (some (bytes "\x7b\"limite\":1,\"saldo\":0\x7d"))]⟩

/-- It is answered as a refused one. -/
theorem lost_answered_rejected :
    ∃ reqres, endTransacaoAsync [⟨1, true⟩, ⟨0, true⟩] (ReqRes.zero : ReqRes Unit) lostDebit =
        .ok (reqres, lostDebit) ∧ status reqres.buffer = bytes "422" ∧
      ¬ Truthful [⟨1, true⟩, ⟨0, true⟩] lostDebit (ReqRes.zero : ReqRes Unit) := by
  have hends : ¬ Ends [⟨1, true⟩, ⟨0, true⟩] := by
    rw [← waitDb_iff]
    decide
  refine ⟨_, endTransacaoAsync_waitFails rfl _ _, unprocessable_status _, fun h => ?_⟩
  obtain ⟨reqres, conn, hcall, htells⟩ := h
  rw [endTransacaoAsync_waitFails rfl] at hcall
  cases hcall
  obtain ⟨_, hres, _⟩ := (tells_rejected _).mp htells
  exact hends hres.1

/-! ### The limit -/

/-- A call of `push_credito` or `push_debito` replies as the numbers call for, and
its NULL is answered 422. -/
structure LimitKept (f : Push) (t : Tables) (seq now : Nat) (a : Args) : Prop where
  decided : Decided f (t.cliente a.cliente_id_in) a.valor_in (f.alone t seq now a)
  unprocessable : f.alone t seq now a = .null → ∀ (reqres : ReqRes Unit) (polls : List Poll) (tag : Nat)
    (query : Query), Ends polls → ∃ reqres',
      endTransacaoAsync polls reqres (some ⟨tag, query, [(f.alone t seq now a).result]⟩) =
        .ok (reqres', none) ∧ status reqres'.buffer = bytes "422"

/-- For every account and every valor from 0 on: the limit is kept exactly when the
client does not exist, or the mathematical saldo is in INTEGER's range and the debit
is refused or its row can be inserted. -/
theorem limitKept_iff (f : Push) (t : Tables) (seq now : Nat) (a : Args) (hvalor : 0 ≤ a.valor_in.val) :
    LimitKept f t seq now a ↔
      ∀ c, t.cliente a.cliente_id_in = some c → f.Fits c a.valor_in ∧
        (f.Refuses c a.valor_in ∨ a.descricao_in ≠ none ∧ seq < 2147483647) := by
  rw [← decided_iff f t seq now a hvalor]
  constructor
  · intro h
    exact h.decided
  · intro h
    refine ⟨h, fun hnull reqres polls tag query hends => ?_⟩
    rw [endTransacaoAsync_ends ((waitDb_iff polls).mpr hends), hnull]
    exact ⟨_, rfl, unprocessable_status reqres⟩

def clienteUm : Integer := .ofFin 1

def descricaoA : Option (Varchar 10) := some (Varchar.cast 10 ['a'])

/-- Client 1 uses up its limit of 100000. -/
def debitoLimite : List (Act Unit) :=
  [.call () .pushDebito ⟨clienteUm, .ofFin 100000, descricaoA⟩, .update (), .insert (), .commit ()]

/-- A debit of 2147483647 is then below every INTEGER: it raises, where it has to be refused. -/
theorem debit_raises :
    ∃ db, run Db.step (Db.seeded : Db Unit) debitoLimite = .ok db ∧
      (∃ c, db.tables.cliente clienteUm = some c ∧ Push.pushDebito.Refuses c (.ofFin 2147483647)) ∧
      Push.pushDebito.alone db.tables db.seq db.clock ⟨clienteUm, .ofFin 2147483647, descricaoA⟩ =
        .raised .numeric_value_out_of_range ∧
      ¬ LimitKept .pushDebito db.tables db.seq db.clock ⟨clienteUm, .ofFin 2147483647, descricaoA⟩ := by
  obtain ⟨db, hdb, hreads⟩ := exists_of_map_ok
    (f := fun db => ((db.tables.cliente clienteUm).map fun c => (c.saldo.val, c.limite.val),
      Push.pushDebito.alone db.tables db.seq db.clock ⟨clienteUm, .ofFin 2147483647, descricaoA⟩))
    (b := (some (-100000, 100000), .raised .numeric_value_out_of_range))
    (show (run Db.step (Db.seeded : Db Unit) debitoLimite).map _ = _ by decide +kernel)
  obtain ⟨hclient, hraised⟩ := Prod.mk.inj hreads
  obtain ⟨c, hc, hnumbers⟩ := Option.map_eq_some_iff.mp hclient
  obtain ⟨hsaldo, hlimite⟩ := Prod.mk.inj hnumbers
  refine ⟨db, hdb, ⟨c, hc, rfl, ?_⟩, hraised, fun h => ?_⟩
  · rw [hsaldo, hlimite]
    decide
  · have hdecided := h.decided
    rw [hraised] at hdecided
    exact Decided.of_raised hdecided

/-- A debit of 1 from client 1. -/
theorem debit_kept : LimitKept .pushDebito seeded 0 0 ⟨clienteUm, .ofFin 1, descricaoA⟩ := by
  refine (limitKept_iff .pushDebito seeded 0 0 ⟨clienteUm, .ofFin 1, descricaoA⟩ (by decide)).mpr ?_
  intro c hc
  obtain rfl := Option.some.inj ((show seeded.cliente clienteUm = some _ from rfl).symm.trans hc)
  exact ⟨by unfold Push.Fits; decide, .inr ⟨nofun, by decide⟩⟩

end Rinha.Server
