import Rinha.Database.Ledger

/-! Replies over any interleaving.

The calls on one client commit one after the other, and the order of the commits
explains every reply: the saldo in the `n`-th reply is the sum of the first `n`
amounts (`SerialReplies`). A `get_extrato` reads the saldo and the transactions in
one statement, so its `saldo.total` is the sum of the rows of the same committed
state (`TruthfulExtratos`). -/
namespace Rinha.Database
open Library

variable {σ : Type*}

/-- In the order of their commits, a client's calls were answered with the running
sums of their amounts. -/
def SerialReplies (db : Db σ) : Prop :=
  ∀ id n p, (postingsTo (postings db.history) id)[n]? = some p →
    p.reply = (((postingsTo (postings db.history) id).take (n + 1)).map Posting.amount).sum

/-- Every extrato of an existing client has in `saldo.total` the sum of the rows
that were visible, from which its `ultimas_transacoes` are taken. -/
def TruthfulExtratos (db : Db σ) : Prop :=
  ∀ s id snapshot reply, .extrato s id snapshot reply ∈ db.history →
    (∃ rows, snapshot.Ordered id rows ∧ reply.ultimas_transacoes = rows.take 10) ∧
      ∀ c, snapshot.cliente id = some c →
        ∃ saldo, reply.saldo = some saldo ∧ saldo.total.val = snapshot.soma id 'c' - snapshot.soma id 'd'

theorem TruthfulExtratos.of_append {db db' : Db σ} (h : TruthfulExtratos db) {e : Entry σ}
    (hh : db'.history = db.history ++ [e])
    (he : ∀ s id snapshot reply, e = .extrato s id snapshot reply →
      (∃ rows, snapshot.Ordered id rows ∧ reply.ultimas_transacoes = rows.take 10) ∧
        ∀ c, snapshot.cliente id = some c → ∃ saldo, reply.saldo = some saldo ∧
          saldo.total.val = snapshot.soma id 'c' - snapshot.soma id 'd') : TruthfulExtratos db' := by
  intro s id snapshot reply hmem
  rw [hh] at hmem
  rcases List.mem_append.mp hmem with hold | hnew
  · exact h s id snapshot reply hold
  · exact he s id snapshot reply (List.mem_singleton.mp hnew).symm

/-- The SELECT reads the saldo and the rows of the same tables. -/
theorem getExtrato_total {t : Tables} {id : Integer} {c : Cliente} (hc : t.cliente id = some c)
    (hrows : ∀ c ∈ t.clientes, c.saldo.val = t.movimento c.id) (now : Nat) (rows : List Transacao) :
    ∃ saldo, (getExtrato t id now rows).saldo = some saldo ∧
      saldo.total.val = t.soma id 'c' - t.soma id 'd' := by
  obtain ⟨hmem, hid⟩ := Tables.cliente_some hc
  refine ⟨⟨c.saldo, now, c.limite⟩, by simp [getExtrato, hc], ?_⟩
  have := hrows c hmem
  rw [hid] at this
  exact this

theorem TruthfulExtratos.step {db db' : Db σ} (h : TruthfulExtratos db) (hbooks : Books db)
    (he : Effect db db') : TruthfulExtratos db' := by
  cases he with
  | none _ hh => unfold TruthfulExtratos; rw [hh]; exact h
  | fails _ _ hh => exact h.of_append hh fun _ _ _ _ heq => nomatch heq
  | commits _ _ _ hh => exact h.of_append hh fun _ _ _ _ heq => nomatch heq
  | noExtrato _ hh => exact h.of_append hh fun _ _ _ _ heq => nomatch heq
  | @reads _ _ now rows hordered _ hh =>
    refine h.of_append hh fun s id snapshot reply heq => ?_
    cases heq
    exact ⟨⟨rows, hordered, rfl⟩, fun c hc => getExtrato_total hc hbooks.rows now rows⟩

section Run
variable [DecidableEq σ]

/-- An extrato is answered from what is committed when its SELECT runs. -/
def SnapshotCommitted (db : Db σ) (act : Act σ) : Prop :=
  ∀ db' s id snapshot reply, db.step act = .ok db' →
    db'.history = db.history ++ [.extrato s id snapshot reply] → snapshot = db.tables

theorem snapshotCommitted_of_locks {db : Db σ} (h : Locks db) (act : Act σ) :
    SnapshotCommitted db act := by
  intro db' s id snapshot reply hs hh
  have hnew : ∀ e, db'.history = db.history ++ [e] → e = .extrato s id snapshot reply := by
    intro e he
    rw [hh] at he
    exact (List.singleton_injective (List.append_cancel_left he)).symm
  cases (step_effect h hs).2 with
  | none _ hsame =>
    have := congrArg List.length (hsame.symm.trans hh)
    simp at this
  | fails _ _ he => exact nomatch hnew _ he
  | commits _ _ _ he => exact nomatch hnew _ he
  | noExtrato _ he => exact nomatch hnew _ he
  | reads _ _ he =>
    cases hnew _ he
    rfl

/-- **Serial replies**: through any interleaving of calls every client's replies
are serial and every extrato is truthful about the committed state it read. -/
theorem serial_replies (acts : List (Act σ)) :
    Throughout Db.step (fun db => SerialReplies db ∧ TruthfulExtratos db) (Db.seeded : Db σ) acts ∧
      EachStep Db.step SnapshotCommitted (Db.seeded : Db σ) acts := by
  constructor
  · have hrun : Throughout Db.step (fun db => (Locks db ∧ Books db) ∧ TruthfulExtratos db)
        (Db.seeded : Db σ) acts := by
      refine throughout_of_all (fun db act db' h hs => ?_)
        ⟨⟨locks_seeded, books_seeded⟩, fun _ _ _ _ hmem => nomatch hmem⟩ acts
      exact ⟨sound_step h.1 hs, h.2.step h.1.2 (step_effect h.1.1 hs).2⟩
    exact hrun.mono fun db h => ⟨fun id n p hp => h.1.2.replied.running id n p hp, h.2⟩
  · exact eachStep_of_all
      (fun _ _ _ h hs => ⟨sound_step h hs, snapshotCommitted_of_locks h.1 _⟩)
      ⟨locks_seeded, books_seeded⟩ acts

end Run
end Rinha.Database
