import Rinha.Database.Ledger

/-! The rows of `transacoes` keep what `init.pgsql` asks of them.

The sequence of the ids is not rolled back and is drawn from before the commit, so
rows are not committed in the order of their ids; and its last number is that of
INTEGER. Still no two rows ever have the same id, every id is one of a SERIAL, and
every row's client exists: no call, however interleaved, comes to violate the primary
key of `transacoes` or its reference to `clientes` (`rows_keyed`). -/
namespace Rinha.Database
open Library

variable {σ : Type*}

/-- `id SERIAL PRIMARY KEY`, `cliente_id INTEGER NOT NULL REFERENCES clientes(id)`, and
the two kinds of rows that there are. -/
structure Keyed (t : Tables) : Prop where
  ids : (t.transacoes.map Transacao.id).Nodup
  serial : ∀ r ∈ t.transacoes, 1 ≤ r.id ∧ r.id ≤ 2147483647
  client : ∀ r ∈ t.transacoes, (t.cliente r.cliente_id).isSome
  tipo : ∀ r ∈ t.transacoes, r.tipo = 'c' ∨ r.tipo = 'd'

/-- A row that was inserted and is not committed. -/
structure Drawn (t : Tables) (seq : Nat) (r : Transacao) : Prop where
  serial : 1 ≤ r.id ∧ r.id ≤ seq
  new : r.id ∉ t.transacoes.map Transacao.id
  client : (t.cliente r.cliente_id).isSome
  tipo : r.tipo = 'c' ∨ r.tipo = 'd'

/-- The row that a session has inserted. -/
def Phase.row : Phase → Option Transacao
  | inserted _ _ _ r => some r
  | _ => none

/-- No id was drawn twice: those of the rows and those of the calls in progress. -/
structure Numbers (db : Db σ) : Prop where
  keyed : Keyed db.tables
  below : ∀ r ∈ db.tables.transacoes, r.id ≤ db.seq
  bound : db.seq ≤ 2147483647
  drawn : ∀ s r, (db.phase s).row = some r → Drawn db.tables db.seq r
  apart : ∀ s s' r r', (db.phase s).row = some r → (db.phase s').row = some r' → r.id = r'.id → s = s'

theorem numbers_seeded : Numbers (Db.seeded : Db σ) := by
  constructor
  · refine ⟨List.nodup_nil, fun r hr => ?_, fun r hr => ?_, fun r hr => ?_⟩
    all_goals cases hr
  · intro r hr
    cases hr
  · exact Nat.zero_le _
  · intro s r hr
    cases hr
  · intro s s' r r' hr
    cases hr

theorem Drawn.mono {t : Tables} {seq seq' : Nat} {r : Transacao} (h : Drawn t seq r) (hle : seq ≤ seq') :
    Drawn t seq' r := ⟨⟨h.serial.1, h.serial.2.trans hle⟩, h.new, h.client, h.tipo⟩

theorem Push.tipo_cases (f : Push) : f.tipo = 'c' ∨ f.tipo = 'd' := by
  cases f with
  | pushCredito => exact .inl rfl
  | pushDebito => exact .inr rfl

/-- An INSERT draws the next id, which is one of a SERIAL, for a client that exists. -/
theorem insertTransacao_draws {t : Tables} {seq now : Nat} {id valor : Integer} {tipo : Char}
    {descricao : Option (Varchar 10)} {r : Transacao}
    (h : t.insertTransacao seq now id valor tipo descricao = .ok r) :
    seq < 2147483647 ∧ r.id = seq + 1 ∧ (t.cliente id).isSome := by
  unfold Tables.insertTransacao at h
  split at h
  · cases h
  rename_i hroom
  split at h
  · cases h
  split at h
  · cases h
  rename_i hclient
  cases h
  exact ⟨not_le.mp hroom, rfl, by simpa [Option.isSome_iff_ne_none] using hclient⟩

/-- No session has a row that it had not before, and the tables stay. -/
theorem Numbers.keep {db db' : Db σ} (h : Numbers db)
    (hrow : ∀ s r, (db'.phase s).row = some r → (db.phase s).row = some r) (htables : db'.tables = db.tables)
    (hle : db.seq ≤ db'.seq) (hbound : db'.seq ≤ 2147483647) : Numbers db' := by
  constructor
  · rw [htables]
    exact h.keyed
  · rw [htables]
    exact fun r hr => (h.below r hr).trans hle
  · exact hbound
  · intro s r hr
    rw [htables]
    exact (h.drawn s r (hrow s r hr)).mono hle
  · exact fun s s' r r' hr hr' => h.apart s s' r r' (hrow s r hr) (hrow s' r' hr')

section Steps
variable [DecidableEq σ]

theorem row_setPhase {db : Db σ} {s : σ} {p : Phase} (hp : p.row = none) (s' : σ) (r : Transacao)
    (h : ((db.setPhase s p).phase s').row = some r) : (db.phase s').row = some r := by
  by_cases heq : s' = s
  · rw [heq, Db.setPhase_self, hp] at h
    cases h
  · rwa [Db.setPhase_ne _ _ heq] at h

theorem row_finish {db : Db σ} {s : σ} (e : Entry σ) (s' : σ) (r : Transacao)
    (h : ((db.finish s e).phase s').row = some r) : s' ≠ s ∧ (db.phase s').row = some r := by
  by_cases heq : s' = s
  · rw [heq, Db.finish_self] at h
    cases h
  · rw [Db.finish_ne _ _ heq] at h
    exact ⟨heq, h⟩

theorem finish_seq (db : Db σ) (s : σ) (e : Entry σ) : (db.finish s e).seq = db.seq := by
  unfold Db.finish
  cases (db.phase s).locked <;> rfl

theorem Numbers.finish {db : Db σ} (h : Numbers db) (s : σ) (e : Entry σ) : Numbers (db.finish s e) := by
  refine h.keep (fun s' r hr => (row_finish e s' r hr).2) (Db.finish_tables db s e) (finish_seq db s e).ge ?_
  rw [finish_seq]
  exact h.bound

theorem Numbers.setPhase {db u : Db σ} (h : Numbers db) (s : σ) {p : Phase} (hp : p.row = none)
    (hphase : u.phase = db.phase) (htables : u.tables = db.tables) (hseq : u.seq = db.seq) :
    Numbers (u.setPhase s p) := by
  refine h.keep (fun s' r hr => ?_) htables hseq.ge (hseq.le.trans h.bound)
  rw [← hphase]
  exact row_setPhase hp s' r hr

theorem begin_numbers {db db' : Db σ} {s : σ} {p : Phase} (h : Numbers db) (hp : p.row = none)
    (hs : db.begin s p = .ok db') : Numbers db' := by
  unfold Db.begin at hs
  split at hs
  · cases hs
    exact h.setPhase s hp rfl rfl rfl
  · cases hs

theorem update_numbers {db db' : Db σ} {s : σ} (h : Numbers db) (hs : db.update s = .ok db') : Numbers db' := by
  unfold Db.update at hs
  split at hs
  · rename_i f a now _
    split at hs
    · cases hs
    · split at hs
      · cases hs
        exact h.finish s _
      · cases hs
        exact h.finish s _
      · cases hs
        exact h.setPhase (u := db.lock a.cliente_id_in s) s rfl rfl rfl rfl
  · cases hs

/-- The INSERT draws the next id, which no row has. -/
theorem insert_numbers {db db' : Db σ} {s : σ} (h : Numbers db) (hs : db.insert s = .ok db') : Numbers db' := by
  unfold Db.insert at hs
  split at hs
  · rename_i f a now row hphase
    have hbound := h.bound
    split at hs
    · cases hs
      have hdraws : Numbers {db with seq := min (db.seq + 1) 2147483647} := by
        refine h.keep (fun _ _ hr => hr) rfl ?_ ?_
        · show db.seq ≤ min _ _
          omega
        · exact Nat.min_le_right _ _
      exact hdraws.finish s _
    · rename_i r hinsert
      cases hs
      obtain ⟨hroom, hid, hclient⟩ := insertTransacao_draws hinsert
      obtain ⟨hcliente, _, htipo, _, _⟩ := Tables.insertTransacao_ok hinsert
      -- The row of this session is the new one, and the others have theirs.
      have hrow : ∀ s' r', (({db with seq := db.seq + 1}.setPhase s (.inserted f a row r) : Db σ).phase s').row =
          some r' → (s' = s ∧ r' = r) ∨ s' ≠ s ∧ (db.phase s').row = some r' := by
        intro s' r' hr'
        by_cases heq : s' = s
        · rw [heq, Db.setPhase_self] at hr'
          exact .inl ⟨heq, (Option.some.inj hr').symm⟩
        · rw [Db.setPhase_ne _ _ heq] at hr'
          exact .inr ⟨heq, hr'⟩
      constructor
      · exact h.keyed
      · exact fun r' hr' => Nat.le_succ_of_le (h.below r' hr')
      · exact hroom
      · intro s' r' hr'
        rcases hrow s' r' hr' with ⟨_, rfl⟩ | ⟨_, hr'⟩
        · refine ⟨⟨by omega, hid.le⟩, fun hmem => ?_, by rw [hcliente]; exact hclient, htipo ▸ f.tipo_cases⟩
          obtain ⟨r₀, hr₀, heq⟩ := List.mem_map.mp hmem
          have := h.below r₀ hr₀
          omega
        · exact (h.drawn s' r' hr').mono (Nat.le_succ _)
      · intro s₁ s₂ r₁ r₂ hr₁ hr₂ heq
        rcases hrow s₁ r₁ hr₁ with ⟨hs₁, rfl⟩ | ⟨_, hold₁⟩
        · rcases hrow s₂ r₂ hr₂ with ⟨hs₂, _⟩ | ⟨_, hold₂⟩
          · exact hs₁.trans hs₂.symm
          · have := (h.drawn s₂ r₂ hold₂).serial.2
            omega
        · rcases hrow s₂ r₂ hr₂ with ⟨_, rfl⟩ | ⟨_, hold₂⟩
          · have := (h.drawn s₁ r₁ hold₁).serial.2
            omega
          · exact h.apart s₁ s₂ r₁ r₂ hold₁ hold₂ heq
  · cases hs

/-- A commit of one client's row leaves the clients that there are. -/
theorem isSome_commit (t : Tables) (row : Cliente) (r : Transacao) (id : Integer) :
    ((t.commit row r).cliente id).isSome = (t.cliente id).isSome := by
  unfold Tables.cliente Tables.commit Tables.put
  rw [Bool.eq_iff_iff, List.find?_isSome, List.find?_isSome]
  simp only [List.mem_map, decide_eq_true_eq]
  constructor
  · intro h
    obtain ⟨_, ⟨c, hc, rfl⟩, hid⟩ := h
    refine ⟨c, hc, ?_⟩
    split at hid
    · rename_i heq
      rw [heq, hid]
    · exact hid
  · intro h
    obtain ⟨c, hc, hid⟩ := h
    refine ⟨_, ⟨c, hc, rfl⟩, ?_⟩
    split
    · rename_i heq
      rw [← heq, hid]
    · exact hid

theorem commit_numbers {db db' : Db σ} {s : σ} (h : Numbers db) (hs : db.commit s = .ok db') : Numbers db' := by
  unfold Db.commit at hs
  split at hs
  · rename_i f a row r hphase
    cases hs
    have hmine : (db.phase s).row = some r := by
      rw [hphase]
      rfl
    have hr := h.drawn s r hmine
    have hseq := finish_seq db s (.pushed s f a (.json row.limite row.saldo))
    generalize Entry.pushed s f a (.json row.limite row.saldo) = e at hseq ⊢
    have hmem : ∀ r', r' ∈ (db.tables.commit row r).transacoes → r' ∈ db.tables.transacoes ∨ r' = r := fun r' hr' =>
      (List.mem_append.mp hr').imp id List.mem_singleton.mp
    constructor
    · constructor
      · show ((db.tables.transacoes ++ [r]).map Transacao.id).Nodup
        rw [List.map_append]
        refine List.nodup_append.mpr ⟨h.keyed.ids, List.nodup_singleton _, ?_⟩
        rintro n hn m hm rfl
        rw [List.mem_singleton.mp hm] at hn
        exact hr.new hn
      · intro r' hr'
        rcases hmem r' hr' with hr' | rfl
        · exact h.keyed.serial r' hr'
        · exact ⟨hr.serial.1, hr.serial.2.trans h.bound⟩
      · intro r' hr'
        rw [isSome_commit]
        rcases hmem r' hr' with hr' | rfl
        · exact h.keyed.client r' hr'
        · exact hr.client
      · intro r' hr'
        rcases hmem r' hr' with hr' | rfl
        · exact h.keyed.tipo r' hr'
        · exact hr.tipo
    · intro r' hr'
      show r'.id ≤ (db.finish s e).seq
      rw [hseq]
      rcases hmem r' hr' with hr' | rfl
      · exact h.below r' hr'
      · exact hr.serial.2
    · show (db.finish s e).seq ≤ _
      rw [hseq]
      exact h.bound
    · intro s' r' hr'
      obtain ⟨hne, hr'⟩ := row_finish e s' r' hr'
      have hd := h.drawn s' r' hr'
      show Drawn (db.tables.commit row r) (db.finish s e).seq r'
      rw [hseq]
      refine ⟨hd.serial, fun hmem => ?_, by rw [isSome_commit]; exact hd.client, hd.tipo⟩
      obtain ⟨r₀, hr₀, heq⟩ := List.mem_map.mp hmem
      rcases List.mem_append.mp hr₀ with hold | hnew
      · exact hd.new (List.mem_map.mpr ⟨r₀, hold, heq⟩)
      · rw [List.mem_singleton.mp hnew] at heq
        exact hne (h.apart s s' r r' hmine hr' heq).symm
    · intro s₁ s₂ r₁ r₂ hr₁ hr₂
      exact h.apart s₁ s₂ r₁ r₂ (row_finish e s₁ r₁ hr₁).2 (row_finish e s₂ r₂ hr₂).2
  · cases hs

theorem step_numbers {db db' : Db σ} {act : Act σ} (h : Numbers db) (hs : db.step act = .ok db') : Numbers db' := by
  cases act with
  | tick =>
    cases hs
    exact h.keep (fun _ _ hr => hr) rfl le_rfl h.bound
  | call s f a => exact begin_numbers h rfl hs
  | callExtrato s id => exact begin_numbers h rfl hs
  | update s => exact update_numbers h hs
  | insert s => exact insert_numbers h hs
  | commit s => exact commit_numbers h hs
  | select s rows =>
    simp only [Db.step, Db.select] at hs
    split at hs
    · split at hs
      · cases hs
        exact h.finish s _
      · cases hs
    · cases hs
  | cancel s =>
    simp only [Db.step, Db.cancel] at hs
    split at hs
    · cases hs
    all_goals
      cases hs
      exact h.finish s _

/-- **In every state that calls lead to the rows of `transacoes` are keyed**, and no call
in progress has an id that a row or another call has. -/
theorem rows_keyed (acts : List (Act σ)) :
    Throughout Db.step (fun db => Keyed db.tables ∧
      ∀ s r, (db.phase s).row = some r → r.id ∉ db.tables.transacoes.map Transacao.id ∧
        ∀ s' r', (db.phase s').row = some r' → r'.id = r.id → s' = s) (Db.seeded : Db σ) acts := by
  refine (throughout_of_all (fun _ _ _ => step_numbers) numbers_seeded acts).mono fun db h => ⟨h.keyed, ?_⟩
  intro s r hr
  exact ⟨(h.drawn s r hr).new, fun s' r' hr' heq => h.apart s' s r' r hr' hr heq⟩

end Steps
end Rinha.Database
