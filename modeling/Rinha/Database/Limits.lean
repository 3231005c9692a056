import Rinha.Database.Sessions

/-! When `push_credito` and `push_debito` decide as the numbers say.

The new saldo is computed in INTEGER arithmetic before the CHECK looks at it, and
only a violated CHECK is caught. So a call decides on the mathematical saldo
exactly when that is an INTEGER, and what it accepts can be inserted. -/
namespace Rinha.Database
open Library

/-! ### A call on its own -/

/-- The body of `push_credito` and `push_debito`, with no other call in between. -/
def Push.alone (f : Push) (t : Tables) (seq now : Nat) (a : Args) : Reply :=
  match t.updateSaldo (f.expr a.valor_in) a.cliente_id_in with
  | .error e => f.handle e
  -- IF NOT FOUND THEN RETURN NULL
  | .ok none => .null
  | .ok (some row) =>
    match t.insertTransacao seq now a.cliente_id_in a.valor_in f.tipo a.descricao_in with
    | .error e => f.handle e
    | .ok _ => .json row.limite row.saldo

section Alone
variable {σ : Type*} [DecidableEq σ]

/-- The steps of a session reply with it, when nobody has the row locked and no
other session takes a step. -/
theorem alone_run {db : Db σ} {s : σ} {f : Push} {a : Args} (hidle : db.phase s = .idle)
    (hfree : db.locks a.cliente_id_in = none) :
    ∃ acts db', run Db.step db (.call s f a :: acts) = .ok db' ∧
      db'.history = db.history ++ [.pushed s f a (f.alone db.tables db.seq db.clock a)] := by
  have hcall : db.step (.call s f a) = .ok (db.setPhase s (.called f a db.clock)) := by
    simp only [Db.step, Db.begin, hidle]
  have hphase : (db.setPhase s (.called f a db.clock)).phase s = .called f a db.clock := if_pos rfl
  have hlocks : (db.setPhase s (.called f a db.clock)).locks a.cliente_id_in = none := hfree
  have htables : (db.setPhase s (.called f a db.clock)).tables = db.tables := rfl
  -- The call ends with this reply, where its update says so.
  have hends : ∀ reply, (db.setPhase s (.called f a db.clock)).update s =
      .ok ((db.setPhase s (.called f a db.clock)).finish s (.pushed s f a reply)) →
      f.alone db.tables db.seq db.clock a = reply →
      ∃ acts db', run Db.step db (.call s f a :: acts) = .ok db' ∧
        db'.history = db.history ++ [.pushed s f a (f.alone db.tables db.seq db.clock a)] := by
    intro reply hupdate hreply
    refine ⟨[.update s], (db.setPhase s (.called f a db.clock)).finish s (.pushed s f a reply), ?_, by
      rw [hreply]; rfl⟩
    rw [run_ok _ _ _ _ hcall]
    exact run_ok _ (Act.update s) [] _ hupdate
  cases hupdate : db.tables.updateSaldo (f.expr a.valor_in) a.cliente_id_in with
  | error e =>
    refine hends (f.handle e) ?_ ?_
    · simp only [Db.update, hphase, hlocks, htables, hupdate]
    · simp only [Push.alone, hupdate]
  | ok found =>
    cases found with
    | none =>
      refine hends .null ?_ ?_
      · simp only [Db.update, hphase, hlocks, htables, hupdate]
      · simp only [Push.alone, hupdate]
    | some row =>
      obtain ⟨u, hu, huphase, hutables, huseq, huhistory⟩ : ∃ u : Db σ,
          (db.setPhase s (.called f a db.clock)).step (.update s) = .ok u ∧
            u.phase s = .updated f a db.clock row ∧ u.tables = db.tables ∧ u.seq = db.seq ∧
              u.history = db.history := by
        refine ⟨((db.setPhase s (.called f a db.clock)).lock a.cliente_id_in s).setPhase s
          (.updated f a db.clock row), ?_, if_pos rfl, rfl, rfl, rfl⟩
        simp only [Db.step, Db.update, hphase, hlocks, htables, hupdate]
      cases hinsert : db.tables.insertTransacao db.seq db.clock a.cliente_id_in a.valor_in f.tipo
          a.descricao_in with
      | error e =>
        have hlast : ∃ v, u.step (.insert s) = .ok v ∧
            v.history = u.history ++ [.pushed s f a (f.handle e)] := by
          simp only [Db.step, Db.insert, huphase, hutables, huseq, hinsert]
          exact ⟨_, rfl, rfl⟩
        obtain ⟨v, hv, hvhistory⟩ := hlast
        refine ⟨[.update s, .insert s], v, ?_, ?_⟩
        · rw [run_ok _ _ _ _ hcall, run_ok _ _ _ _ hu]
          exact run_ok _ (Act.insert s) [] _ hv
        · simp only [hvhistory, huhistory, Push.alone, hupdate, hinsert]
      | ok r =>
        have hlast : ∃ v, u.step (.insert s) = .ok v ∧ v.phase s = .inserted f a row r ∧
            v.history = u.history := by
          simp only [Db.step, Db.insert, huphase, hutables, huseq, hinsert]
          exact ⟨_, rfl, if_pos rfl, rfl⟩
        obtain ⟨v, hv, hvphase, hvhistory⟩ := hlast
        have hcommit : ∃ w, v.step (.commit s) = .ok w ∧
            w.history = v.history ++ [.pushed s f a (.json row.limite row.saldo)] := by
          simp only [Db.step, Db.commit, hvphase]
          exact ⟨_, rfl, rfl⟩
        obtain ⟨w, hw, hwhistory⟩ := hcommit
        refine ⟨[.update s, .insert s, .commit s], w, ?_, ?_⟩
        · rw [run_ok _ _ _ _ hcall, run_ok _ _ _ _ hu, run_ok _ _ _ _ hv]
          exact run_ok _ (Act.commit s) [] _ hw
        · simp only [hwhistory, hvhistory, huhistory, Push.alone, hupdate, hinsert]

end Alone

/-! ### INTEGER arithmetic -/

theorem Integer.of_val {z : Int} {n : Integer} (h : n.val = z) : Integer.of z = .ok n := by
  have hrange : -2147483648 ≤ z ∧ z ≤ 2147483647 := h ▸ ⟨n.lower, n.upper⟩
  unfold Integer.of
  rw [dif_pos hrange]
  exact congrArg Except.ok (Integer.ext h.symm)

theorem Integer.of_out {z : Int} (h : ¬ (-2147483648 ≤ z ∧ z ≤ 2147483647)) :
    Integer.of z = .error .numeric_value_out_of_range := dif_neg h

/-- What the call makes of the saldo is the mathematical value, where that is an INTEGER. -/
theorem Push.expr_eq (f : Push) (valor saldo : Integer) :
    f.expr valor saldo = Integer.of (saldo.val + f.signed valor) := by
  cases f with
  | pushCredito => rfl
  | pushDebito =>
    show Integer.of (saldo.val - valor.val) = Integer.of (saldo.val + -valor.val)
    rw [Int.sub_eq_add_neg]

/-- The limite of a row can be negated: its least value would allow no saldo. -/
theorem Cliente.setSaldo_eq (c : Cliente) (saldo : Integer) :
    c.setSaldo saldo =
      if h : -c.limite.val ≤ saldo.val then .ok ⟨c.id, c.limite, saldo, h⟩ else .error .check_violation := by
  have hcheck := c.check
  have hsaldo := c.saldo.upper
  have hlimite := c.limite.upper
  have hneg : c.limite.neg = .ok ⟨-c.limite.val, by omega, by omega⟩ := Integer.of_val rfl
  unfold Cliente.setSaldo
  rw [hneg]

/-! ### The decision -/

/-- The mathematical saldo after a debit is below what the limite allows. -/
def Push.Refuses (f : Push) (c : Cliente) (valor : Integer) : Prop :=
  f = .pushDebito ∧ c.saldo.val - valor.val < -c.limite.val

/-- The reply is the one the numbers call for: NULL when there is no such client
or the debit is refused, and else the limite and the mathematical saldo. -/
structure Decided (f : Push) (found : Option Cliente) (valor : Integer) (reply : Reply) : Prop where
  never_raises : ∀ e, reply ≠ .raised e
  null_iff : reply = .null ↔ ∀ c, found = some c → f.Refuses c valor
  json : ∀ limite saldo, reply = .json limite saldo →
    ∃ c, found = some c ∧ limite = c.limite ∧ saldo.val = c.saldo.val + f.signed valor

/-- The mathematical saldo is in INTEGER's range. -/
def Push.Fits (f : Push) (c : Cliente) (valor : Integer) : Prop :=
  -2147483648 ≤ c.saldo.val + f.signed valor ∧ c.saldo.val + f.signed valor ≤ 2147483647

theorem Decided.of_raised {f : Push} {found : Option Cliente} {valor : Integer} {e : SqlError} :
    ¬ Decided f found valor (.raised e) := fun h => h.never_raises e rfl

theorem decided_null {f : Push} {found : Option Cliente} {valor : Integer} :
    Decided f found valor .null ↔ ∀ c, found = some c → f.Refuses c valor := by
  constructor
  · intro h
    exact h.null_iff.mp rfl
  · intro h
    refine ⟨fun e he => ?_, iff_of_true rfl h, fun limite saldo he => ?_⟩
    · cases he
    · cases he

/-- What the UPDATE does to a client that exists. -/
theorem updateSaldo_client {t : Tables} {a : Args} {c : Cliente} (f : Push)
    (hc : t.cliente a.cliente_id_in = some c) :
    (¬ f.Fits c a.valor_in ∧ t.updateSaldo (f.expr a.valor_in) a.cliente_id_in =
        .error .numeric_value_out_of_range) ∨
      (f.Fits c a.valor_in ∧ c.saldo.val + f.signed a.valor_in < -c.limite.val ∧
        t.updateSaldo (f.expr a.valor_in) a.cliente_id_in = .error .check_violation) ∨
      ∃ row, f.Fits c a.valor_in ∧ -c.limite.val ≤ c.saldo.val + f.signed a.valor_in ∧
        t.updateSaldo (f.expr a.valor_in) a.cliente_id_in = .ok (some row) ∧
          row.limite = c.limite ∧ row.saldo.val = c.saldo.val + f.signed a.valor_in := by
  unfold Tables.updateSaldo
  rw [hc]
  simp only [Push.expr_eq]
  by_cases hfits : f.Fits c a.valor_in
  · have hof : Integer.of (c.saldo.val + f.signed a.valor_in) = .ok ⟨_, hfits.1, hfits.2⟩ :=
      Integer.of_val rfl
    simp only [hof, c.setSaldo_eq]
    by_cases hcheck : -c.limite.val ≤ c.saldo.val + f.signed a.valor_in
    · rw [dif_pos hcheck]
      exact .inr (.inr ⟨_, hfits, hcheck, rfl, rfl, rfl⟩)
    · rw [dif_neg hcheck]
      exact .inr (.inl ⟨hfits, Int.not_le.mp hcheck, rfl⟩)
  · rw [Integer.of_out hfits]
    exact .inl ⟨hfits, rfl⟩

/-- The row of a client that exists is inserted when it has a description and a number is left. -/
theorem insertTransacao_client {t : Tables} {seq now : Nat} {a : Args} {c : Cliente} {tipo : Char}
    (hc : t.cliente a.cliente_id_in = some c) :
    ((a.descricao_in ≠ none ∧ seq < 2147483647) ∧
        ∃ r, t.insertTransacao seq now a.cliente_id_in a.valor_in tipo a.descricao_in = .ok r) ∨
      (¬ (a.descricao_in ≠ none ∧ seq < 2147483647) ∧
        ∃ e, e ≠ .check_violation ∧
          t.insertTransacao seq now a.cliente_id_in a.valor_in tipo a.descricao_in = .error e) := by
  unfold Tables.insertTransacao
  by_cases hseq : 2147483647 ≤ seq
  · rw [if_pos hseq]
    exact .inr ⟨by omega, .sequence_generator_limit_exceeded, by decide, rfl⟩
  rw [if_neg hseq]
  cases hdescricao : a.descricao_in with
  | none => exact .inr ⟨fun h => h.1 rfl, .not_null_violation, by decide, rfl⟩
  | some descricao =>
    refine .inl ⟨⟨nofun, by omega⟩, ?_⟩
    simp only [hc, Option.isNone_some, Bool.false_eq_true, if_false]
    exact ⟨_, rfl⟩

/-- For every account and every valor from 0 on: a call decides as the numbers say
exactly when the client does not exist, or the mathematical saldo is an INTEGER
and the debit is refused or its row can be inserted. -/
theorem decided_iff (f : Push) (t : Tables) (seq now : Nat) (a : Args) (hvalor : 0 ≤ a.valor_in.val) :
    Decided f (t.cliente a.cliente_id_in) a.valor_in (f.alone t seq now a) ↔
      ∀ c, t.cliente a.cliente_id_in = some c → f.Fits c a.valor_in ∧
        (f.Refuses c a.valor_in ∨ a.descricao_in ≠ none ∧ seq < 2147483647) := by
  cases hc : t.cliente a.cliente_id_in with
  | none =>
    have hnull : f.alone t seq now a = .null := by simp only [Push.alone, Tables.updateSaldo, hc]
    rw [hnull, decided_null]
    constructor
    · intro _ c hc'
      cases hc'
    · intro _ c hc'
      cases hc'
  | some c =>
    simp only [Option.some.injEq, forall_eq']
    have hcheck := c.check
    rcases updateSaldo_client f hc with
      ⟨hfits, hupdate⟩ | ⟨hfits, hlow, hupdate⟩ | ⟨row, hfits, hhigh, hupdate, hlimite, hsaldo⟩
    · have hraised : f.alone t seq now a = .raised .numeric_value_out_of_range := by
        simp only [Push.alone, hupdate]
        cases f <;> rfl
      rw [hraised]
      exact ⟨fun h => absurd h Decided.of_raised, fun h => absurd h.1 hfits⟩
    · -- Only a debit can bring the saldo below the limite, and then it is caught.
      cases f with
      | pushCredito =>
        simp only [Push.signed] at hlow
        omega
      | pushDebito =>
        have hrefuses : Push.pushDebito.Refuses c a.valor_in := by
          simp only [Push.signed] at hlow
          exact ⟨rfl, by omega⟩
        have hnull : Push.pushDebito.alone t seq now a = .null := by
          simp only [Push.alone, hupdate]
          rfl
        rw [hnull, decided_null]
        refine ⟨fun _ => ⟨hfits, .inl hrefuses⟩, fun _ c' hc' => ?_⟩
        cases hc'
        exact hrefuses
    · have hrefuses : ¬ f.Refuses c a.valor_in := by
        intro h
        obtain ⟨rfl, hlow⟩ := h
        simp only [Push.signed] at hhigh
        omega
      rcases @insertTransacao_client _ seq now _ _ f.tipo hc with
        ⟨hcan, r, hinsert⟩ | ⟨hcannot, e, he, hinsert⟩
      · have hjson : f.alone t seq now a = .json row.limite row.saldo := by
          simp only [Push.alone, hupdate, hinsert]
        rw [hjson]
        refine ⟨fun _ => ⟨hfits, .inr hcan⟩, fun _ => ⟨fun e h => ?_, ?_, fun limite saldo h => ?_⟩⟩
        · cases h
        · exact iff_of_false (fun h => by cases h) fun h => hrefuses (h c rfl)
        · cases h
          exact ⟨c, rfl, hlimite, hsaldo⟩
      · have hraised : f.alone t seq now a = .raised e := by
          simp only [Push.alone, hupdate, hinsert, Push.handle]
          cases f with
          | pushCredito => rfl
          | pushDebito => exact if_neg (by simpa [Push.catches] using he)
        rw [hraised]
        refine ⟨fun h => absurd h Decided.of_raised, fun h => ?_⟩
        exact absurd (h.2.resolve_left hrefuses) hcannot

end Rinha.Database
