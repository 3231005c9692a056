import Rinha.Database.Atomic

/-! Every row is one accepted call.

A call that is answered with JSON has left one row in `transacoes`, with its client, its
amount, its kind and its description, and no other call has left any: what is committed
are the accepted calls, in the order of their answers. An extrato shows the rows of those
that came before it, and what they add up to (`records_kept`). -/
namespace Rinha.Database
open Library

/-- What a row says of its transaction. -/
structure Record where
  cliente_id : Integer
  valor : Integer
  tipo : Char
  descricao : Varchar 10
  deriving DecidableEq

def Transacao.record (r : Transacao) : Record := ⟨r.cliente_id, r.valor, r.tipo, r.descricao⟩

/-- What it adds to the saldo. -/
def Record.signed (r : Record) : Int := if r.tipo = 'c' then r.valor.val else -r.valor.val

variable {σ : Type*}

/-- What an accepted call asks to be recorded. -/
def Entry.record : Entry σ → Option Record
  | pushed _ f a (.json _ _) => a.descricao_in.map fun descricao => ⟨a.cliente_id_in, a.valor_in, f.tipo, descricao⟩
  | pushed _ _ _ .null => none
  | pushed _ _ _ (.raised _) => none
  | extrato _ _ _ _ => none
  | noExtrato _ _ => none

/-- The accepted calls for a client. -/
def accepted (entries : List (Entry σ)) (id : Integer) : List Record :=
  (entries.filterMap Entry.record).filter fun r => r.cliente_id = id

theorem accepted_append (entries more : List (Entry σ)) (id : Integer) :
    accepted (entries ++ more) id = accepted entries id ++ accepted more id := by
  unfold accepted
  rw [List.filterMap_append, List.filter_append]

theorem accepted_none {e : Entry σ} (h : e.record = none) (id : Integer) : accepted [e] id = [] := by
  unfold accepted
  rw [List.filterMap_cons_none h]
  rfl

theorem accepted_some {e : Entry σ} {r : Record} (h : e.record = some r) (id : Integer) :
    accepted [e] id = if r.cliente_id = id then [r] else [] := by
  unfold accepted
  rw [List.filterMap_cons_some h]
  by_cases hid : r.cliente_id = id <;> simp [hid]

/-! ### One call -/

theorem record_handle (s : σ) (f : Push) (a : Args) (e : SqlError) :
    (Entry.pushed s f a (f.handle e)).record = none := by
  unfold Push.handle
  split <;> rfl

/-- The call has changed nothing and is not recorded, or it has updated the client's row
to what it is answered with, and left a row that is its record. -/
inductive Leaves (t : Tables) (e : Entry σ) (t' : Tables) : Prop where
  | nothing (hrecord : e.record = none) (same : t' = t)
  | row (c row : Cliente) (r : Transacao) (hcliente : t.cliente r.cliente_id = some c) (hid : row.id = r.cliente_id)
      (hlimite : row.limite = c.limite) (hsaldo : row.saldo.val = c.saldo.val + r.record.signed)
      (hrecord : e.record = some r.record) (commits : t' = t.commit row r)

theorem signed_tipo (f : Push) (id valor : Integer) (descricao : Varchar 10) :
    Record.signed ⟨id, valor, f.tipo, descricao⟩ = f.signed valor := by
  cases f <;> rfl

theorem Alone.leaves {t t' : Tables} {e : Entry σ} (h : Alone t e t') : Leaves t e t' := by
  cases h with
  | pushed s f a seq now =>
    unfold Push.apply
    split
    · exact .nothing (record_handle ..) rfl
    · exact .nothing rfl rfl
    · rename_i row hupdate
      split
      · exact .nothing (record_handle ..) rfl
      · rename_i r hinsert
        obtain ⟨c, hcliente, hid, hlimite, hexpr⟩ := Tables.updateSaldo_some hupdate
        obtain ⟨hcliente_id, hvalor, htipo, hdescricao, _⟩ := Tables.insertTransacao_ok hinsert
        have hrecord : r.record = ⟨a.cliente_id_in, a.valor_in, f.tipo, r.descricao⟩ := by
          rw [Transacao.record, hcliente_id, hvalor, htipo]
        refine .row c row r (hcliente_id ▸ hcliente) (hid.trans hcliente_id.symm) hlimite ?_ ?_ rfl
        · rw [hrecord, signed_tipo]
          exact Push.expr_ok hexpr
        · rw [hrecord, Entry.record, hdescricao]
          rfl
  | canceled => exact .nothing rfl rfl
  | extrato => exact .nothing rfl rfl
  | noExtrato => exact .nothing rfl rfl

/-- A call alone leaves a row where it is accepted, and none where it is not. -/
theorem Leaves.records {t t' : Tables} {e : Entry σ} (h : Leaves t e t') :
    t'.transacoes.map Transacao.record = t.transacoes.map Transacao.record ++ e.record.toList := by
  cases h with
  | nothing hrecord same =>
    rw [hrecord, same]
    exact (List.append_nil _).symm
  | row c row r hcliente hid hlimite hsaldo hrecord commits =>
    rw [hrecord, commits]
    exact List.map_append ..

theorem cliente_commit_self {t : Tables} {row c : Cliente} {r : Transacao} (h : t.cliente row.id = some c) :
    (t.commit row r).cliente row.id = some row := by
  obtain ⟨hmem, hid⟩ := Tables.cliente_some h
  exact Tables.cliente_of_mem (List.mem_map.mpr ⟨c, hmem, if_pos hid⟩)

/-- What a client has, and how far it may fall. -/
def Tables.conta (t : Tables) (id : Integer) : Option (Int × Integer) :=
  (t.cliente id).map fun c => (c.saldo.val, c.limite)

/-- The limite stays, and the saldo moves by what is recorded. -/
theorem Leaves.conta {t t' : Tables} {e : Entry σ} (h : Leaves t e t') (id : Integer) :
    t'.conta id = (t.conta id).map fun conta => (conta.1 + ((accepted [e] id).map Record.signed).sum, conta.2) := by
  cases h with
  | nothing hrecord same =>
    rw [accepted_none hrecord, same]
    simp
  | row c row r hcliente hid hlimite hsaldo hrecord commits =>
    rw [accepted_some hrecord, commits]
    by_cases hclient : r.cliente_id = id
    · have hcommitted : (t.commit row r).cliente id = some row := by
        rw [← hclient, ← hid]
        exact cliente_commit_self (hid ▸ hcliente)
      rw [hclient] at hcliente
      have hsame : r.record.cliente_id = id := hclient
      simp [Tables.conta, hcommitted, hcliente, hsame, hsaldo, hlimite]
    · have hother : (t.commit row r).cliente id = t.cliente id :=
        Tables.cliente_commit_other fun heq => hclient (hid.symm.trans heq)
      have hsame : r.record.cliente_id ≠ id := hclient
      rw [Tables.conta, hother, if_neg hsame, Tables.conta, Option.map_map]
      simp [Function.comp_def]

/-! ### All of them -/

theorem records_replay {t u : Tables} {entries : List (Entry σ)} (h : Replays Alone t entries u) :
    u.transacoes.map Transacao.record = t.transacoes.map Transacao.record ++ entries.filterMap Entry.record := by
  induction h with
  | nil => exact (List.append_nil _).symm
  | concat _ he ih =>
    rw [he.leaves.records, ih, List.filterMap_append, List.append_assoc]
    congr 1

theorem conta_replay {t u : Tables} {entries : List (Entry σ)} (h : Replays Alone t entries u) (id : Integer) :
    u.conta id = (t.conta id).map fun conta => (conta.1 + ((accepted entries id).map Record.signed).sum, conta.2) := by
  induction h with
  | nil => simp [accepted]
  | concat _ he ih =>
    rw [he.leaves.conta id, ih, Option.map_map, accepted_append]
    congr 1
    funext conta
    simp [add_assoc]

theorem conta_seeded (id : Integer) :
    seeded.conta id = (seeded.cliente id).map fun c => (0, c.limite) := by
  cases h : seeded.cliente id with
  | none => rw [Tables.conta, h]; rfl
  | some c =>
    have hzero : ∀ c ∈ seeded.clientes, c.saldo.val = 0 := by decide
    rw [Tables.conta, h, Option.map_some, Option.map_some, hzero c (Tables.cliente_some h).1]

/-- What an extrato shows: what the client's calls add up to that were accepted before it,
its limite, and of these calls those of the latest ten rows. -/
structure Shows (before : List (Entry σ)) (id : Integer) (reply : Extrato) : Prop where
  saldo : (reply.saldo.map fun saldo => (saldo.total.val, saldo.limite)) =
    (seeded.cliente id).map fun c => (((accepted before id).map Record.signed).sum, c.limite)
  latest : ∃ rows : List Transacao, (rows.map Transacao.record).Perm (accepted before id) ∧
    (rows.Pairwise fun r r' => r'.realizada_em ≤ r.realizada_em) ∧ reply.ultimas_transacoes = rows.take 10

theorem shows_of_alone {t t' : Tables} {before : List (Entry σ)} {s : σ} {id : Integer} {snapshot : Tables}
    {reply : Extrato} (hbefore : Replays Alone seeded before t) (h : Alone t (.extrato s id snapshot reply) t') :
    Shows before id reply := by
  have hrows := records_replay hbefore
  have hconta := conta_replay hbefore id
  cases h with
  | extrato s id now hordered =>
    constructor
    · rw [conta_seeded, Option.map_map, Tables.conta] at hconta
      rw [getExtrato, Option.map_map]
      simpa [Function.comp_def] using hconta
    · obtain ⟨hperm, hfalls⟩ := hordered
      refine ⟨_, ?_, hfalls, rfl⟩
      have hfilter : (t.transacoesDe id).map Transacao.record =
          (t.transacoes.map Transacao.record).filter fun r => r.cliente_id = id := by
        rw [List.filter_map]
        rfl
      have hmap := hperm.map Transacao.record
      rw [hfilter, hrows] at hmap
      exact hmap

theorem shows_of_replays {t : Tables} {entries before after : List (Entry σ)} {s : σ} {id : Integer}
    {snapshot : Tables} {reply : Extrato} (h : Replays Alone seeded entries t)
    (hsplit : entries = before ++ .extrato s id snapshot reply :: after) : Shows before id reply := by
  rw [hsplit] at h
  obtain ⟨u, v, hbefore, he, _⟩ := h.split
  exact shows_of_alone hbefore he

/-- What is committed is what was accepted, call by call, and so is what was shown. -/
structure Kept (db : Db σ) : Prop where
  rows : db.tables.transacoes.map Transacao.record = db.history.filterMap Entry.record
  contas : ∀ id, db.tables.conta id =
    (seeded.cliente id).map fun c => (((accepted db.history id).map Record.signed).sum, c.limite)
  shown : ∀ before after s id snapshot reply, db.history = before ++ .extrato s id snapshot reply :: after →
    Shows before id reply

variable [DecidableEq σ]

/-- **No accepted transaction is lost and none is recorded twice**, through every
interleaving: the rows are the accepted calls, the saldos what these add up to, and an
extrato shows those before it. -/
theorem records_kept (acts : List (Act σ)) : Throughout Db.step Kept (Db.seeded : Db σ) acts := by
  apply (replays_alone acts).mono
  intro db h
  refine ⟨records_replay h, fun id => ?_, fun _ _ _ _ _ _ => shows_of_replays h⟩
  rw [conta_replay h id, conta_seeded, Option.map_map]
  simp [Function.comp_def]

end Rinha.Database
