import Rinha.Server.Exclusive
import Rinha.Server.Slots

/-! Who owns the database connections.

`DBCONNS_USED` says which connections a request waits for, in every run of clean
turns where no read on a connection of the pool fails: a failed one leaves its
connection used, with nobody waiting for it. -/
namespace Rinha.Server
open Library Request Client

variable {P N : Nat}

/-- No two requests wait for a reply on one connection; the connections used are
those a request waits for; and one that is not used is idle. -/
structure Owned (s : State P N) : Prop where
  single : ∀ c, s.awaiting c ≤ 1
  used : ∀ c, s.used c = true ↔ s.awaiting c = 1
  idle : ∀ c, s.used c = false → s.conns c = none

/-- The completed operation is not a read on a database connection that failed. -/
def ReplyArrives (s : State P N) : Input → Prop
  | .completes c _ => ∀ p ∈ s.pending[c.index]?, p.op = .dbRead → 0 ≤ c.result
  | .interrupted _ => True
  | .fails => True

instance (s : State P N) : (input : Input) → Decidable (ReplyArrives s input)
  | .completes _ _ => inferInstanceAs (Decidable (∀ _ ∈ _, _))
  | .interrupted _ => .isTrue trivial
  | .fails => .isTrue trivial

/-- The turn gives its connections back, and to nobody else. -/
def Returns (s : State P N) (input : Input) : Prop := ReplyArrives s input ∧ CleanTurn s input

instance (s : State P N) (input : Input) : Decidable (Returns s input) :=
  inferInstanceAs (Decidable (_ ∧ _))

/-- A used connection is awaited, or in hand. -/
def Occupied (hand : Option (Fin N)) (s : State P N) : Prop :=
  ∀ d, hand ≠ some d → s.used d = true → s.awaiting d ≠ 0

theorem owned_iff {s : State P N} : Owned s ↔ (∀ c, Exclusive s c) ∧ Occupied none s := by
  constructor
  · intro h
    refine ⟨fun c => ⟨h.single c, fun hused => ?_, h.idle c⟩, fun c _ hused => ?_⟩
    · have hnot : s.awaiting c ≠ 1 := by
        rw [Ne, ← h.used c, hused]
        decide
      have := h.single c
      omega
    · rw [(h.used c).mp hused]
      decide
  · rintro ⟨h, hoccupied⟩
    refine ⟨fun c => (h c).single, fun c => ⟨fun hused => ?_, fun hone => ?_⟩, fun c => (h c).idle⟩
    · have := hoccupied c nofun hused
      have := (h c).single
      omega
    · cases hused : s.used c with
      | true => rfl
      | false =>
        have := (h c).unawaited hused
        omega

/-! ### The dispatch -/

theorem occupied_getDbconn {s : State P N} (h : Occupied none s) :
    Occupied s.getDbconn.1 s.getDbconn.2 := by
  rcases getDbconn_cases s with ⟨c, _, heq⟩ | heq
  · rw [heq]
    intro d hd hused
    have hdc : d ≠ c := fun h => hd (congrArg some h.symm)
    rw [s.setUsed_ne true hdc] at hused
    exact h d nofun hused
  · rw [heq]
    exact h

theorem occupied_kept :
    KeptByTurns fun (hand : Option (Fin N)) (s : State P N) => InHand hand s ∧ Occupied hand s := by
  constructor
  · intro c s queue h hnil hnil'
    exact ⟨inHand_kept.empty c s queue h.1 hnil hnil', h.2⟩
  · intro c s queue i response hs h hcons hq hnone hr
    refine ⟨inHand_kept.refuse c s queue i response hs h.1 hcons hq hnone hr, fun d hd hused => ?_⟩
    have hdc : d ≠ c := fun heq => hd (congrArg some heq.symm)
    have hsame : (s.refuseTurn queue i c response).used d = s.used d := Function.update_of_ne hdc ..
    rw [awaiting_refuseTurn hs hcons c response]
    exact h.2 d hd (hsame.symm.trans hused)
  · intro c s queue i query o hs h hcons hq hquery
    refine ⟨inHand_kept.send c s queue i query o hs h.1 hcons hq hquery, occupied_getDbconn ?_⟩
    intro d _ hused
    rw [awaiting_sendTurn hs hcons c query o]
    by_cases hcd : c = d
    · rw [if_pos hcd]
      omega
    · rw [if_neg hcd, Nat.add_zero]
      exact h.2 d (fun heq => hcd (Option.some.inj heq)) hused

theorem owned_dispatch {s s' : State P N} (hs : Consistent s []) (h : Owned s)
    (hclean : cleanPass s.free s.commands = true) {outcomes : Nat → Outcome}
    (hd : s.queuDispatch outcomes = .ok s') : Owned s' := by
  obtain ⟨hexclusive, hoccupied⟩ := owned_iff.mp h
  have hrelease : ∀ (c : Fin N) (t : State P N), InHand (some c) t ∧ Occupied (some c) t →
      Owned (t.setUsed c false) := by
    rintro c t ⟨hin, hocc⟩
    refine owned_iff.mpr ⟨hin.release, fun d _ hused => ?_⟩
    have hdc : d ≠ c := by
      rintro rfl
      rw [t.setUsed_self] at hused
      cases hused
    rw [t.setUsed_ne false hdc] at hused
    exact hocc d (fun heq => hdc (Option.some.inj heq).symm) hused
  exact queuDispatch_keeps occupied_kept (fun t ht => owned_iff.mpr ⟨fun d => ht.1.others d nofun, ht.2⟩)
    hrelease hs ⟨inHand_getDbconn hexclusive hclean, occupied_getDbconn hoccupied⟩ hd

/-! ### A completion -/

/-- A connection stays used only where it is still awaited. -/
theorem occupied_handled {s s' : State P N} {c : Completion} {p : Pending P} (hc : Consistent s [p.slot])
    (h : ∀ d, s.used d = true → s.awaiting d ≠ 0 ∨ p.op = .dbRead ∧ (s.pool p.slot).dbconn = some d)
    (hread : p.op = .dbRead → 0 ≤ c.result) (hs : Handled s c p s') : Occupied none s' := by
  have hother : ∀ {op : Op}, p.op = op → op ≠ .dbRead → Occupied none s := by
    intro op hop hne d _ hused
    exact (h d hused).resolve_right fun hdb => hne (hop.symm.trans hdb.1)
  have hmoved : Occupied none s → s'.used = s.used → Occupied none s' := by
    intro ho hused d hd hd'
    rw [awaiting_handled hc hs]
    exact ho d hd (by rw [← hused]; exact hd')
  cases hs with
  | failed hresult =>
    refine hother rfl fun hop => ?_
    have := hread hop
    omega
  | accepted j hop hresult hfree hne => exact hmoved (hother hop (by decide)) rfl
  | answered response r hop hresult hno hr hresponse => exact hmoved (hother hop (by decide)) rfl
  | queued queue r hop hresult hbuffer hr hpush => exact hmoved (hother hop (by decide)) rfl
  | written hop hresult => exact hmoved (hother hop (by decide)) rfl
  | closed hop hresult => exact hmoved (hother hop (by decide)) rfl
  | replied e conn r handler hop hresult hhandler hdbconn hcall =>
    intro d _ hused
    rw [awaiting_handled hc (.replied e conn r handler hop hresult hhandler hdbconn hcall)]
    replace hused : Function.update s.used e false d = true := hused
    have hde : d ≠ e := by
      rintro rfl
      rw [Function.update_self] at hused
      cases hused
    rw [Function.update_of_ne hde] at hused
    refine (h d hused).resolve_right fun hdb => hde ?_
    exact Option.some.inj (hdb.2.symm.trans hdbconn)

theorem owned_handle {s s' : State P N} {c : Completion} (hs : Consistent s []) (h : Owned s)
    (hread : ∀ p ∈ s.pending[c.index]?, p.op = .dbRead → 0 ≤ c.result) (hwait : WaitSucceeds s c)
    (ht : s.handle c = .ok s') : Consistent s' [] ∧ Owned s' := by
  obtain ⟨p, hp, _, hcompleted, hhandled, hcons⟩ := handle_cases hs ht
  obtain ⟨hexclusive, hoccupied⟩ := owned_iff.mp h
  refine ⟨hcons, owned_iff.mpr ⟨fun d => ?_, ?_⟩⟩
  · exact exclusive_handled hcompleted (fun d => (exclusive_completed hp (hexclusive d)).1)
      (fun d => (exclusive_completed hp (hexclusive d)).2) (hwait p hp) hhandled d
  · refine occupied_handled hcompleted (fun d hused => ?_) (hread p hp) hhandled
    have hbefore := hoccupied d nofun hused
    have hawaiting := awaiting_completed hp d
    by_cases hdb : p.op = .dbRead ∧ (s.pool p.slot).dbconn = some d
    · exact .inr hdb
    · rw [if_neg hdb, Nat.add_zero] at hawaiting
      exact .inl (by rw [← hawaiting]; exact hbefore)

/-! ### Every run -/

theorem owned_step {s s' : State P N} {input : Input} (h : Consistent s [] ∧ Owned s)
    (hC : Returns s input) (hs : s.step input = .ok s') : Consistent s' [] ∧ Owned s' := by
  refine ⟨consistent_step h.1 hs, ?_⟩
  rcases step_cases hs with ⟨c, outcomes, t, rfl, ht, hd⟩ | ⟨outcomes, rfl, hd⟩
  · obtain ⟨htcons, htowned⟩ := owned_handle h.1 h.2 hC.1 hC.2.1 ht
    refine owned_dispatch htcons htowned (hC.2.2 t ?_) hd
    rw [ht]
    rfl
  · exact owned_dispatch h.1 h.2 hC.2 hd

theorem owned_start {s : State P N} (hs : (State.start : Except Stop (State P N)) = .ok s) : Owned s := by
  obtain ⟨i, t, outcomes, rfl, ht, hd⟩ := start_cases hs
  refine owned_dispatch ht ?_ (cleanPass_nil _) hd
  refine ⟨fun c => Nat.zero_le 1, fun c => ⟨fun hused => ?_, fun hone => ?_⟩, fun c _ => rfl⟩
  · cases hused
  · cases hone

/-- **The connections are owned in every run whose turns give them back.** -/
theorem owned_of_returns {s : State P N} (hs : (State.start : Except Stop (State P N)) = .ok s)
    (inputs : List Input) (h : EachStep State.step Returns s inputs) :
    Throughout State.step Owned s inputs :=
  (throughout_of_steps (fun _ _ _ => owned_step) ⟨consistent_start hs, owned_start hs⟩ h).mono fun _ => And.right

/-! ### A request behind one that is refused -/

def getExtrato : List UInt8 := bytes "GET /clientes/1/extrato HTTP/1.1\r\n\r\n"

/-- A transaction without a body, which is answered when its turn comes. -/
def postNothing : List UInt8 := bytes "POST /clientes/1/transacoes HTTP/1.1\r\n\r\n"

/-- A request has the one connection while `postNothing` and another are queued. -/
def behindRefused : List Input :=
  [done 0 5 [], done 0 36 getExtrato, done 0 6 [], done 1 40 postNothing, done 1 7 [], done 1 36 getExtrato,
    done 0 0 []]

/-- When the first is answered, the third waits for its reply on a connection that
is in the pool. -/
theorem used_while_free :
    ∃ s t : State 4 1, State.start = .ok s ∧ run State.step s behindRefused = .ok t ∧ t.used 0 = false ∧
      t.awaiting 0 = 1 ∧ t.conns 0 ≠ none ∧ ¬ Throughout State.step Owned s behindRefused := by
  obtain ⟨s, t, hs, ht, hbad⟩ := exists_run_ok State.step (State.start : Except Stop (State 4 1))
    behindRefused (fun t => (t.used 0, t.awaiting 0, (t.conns 0).isSome)) (false, 1, true) (by decide +kernel)
  simp only [Prod.mk.injEq] at hbad
  obtain ⟨hused, hawaiting, hconn⟩ := hbad
  have hne : t.conns 0 ≠ none := Option.isSome_iff_ne_none.mp hconn
  exact ⟨s, t, hs, ht, hused, hawaiting, hne, fun h => hne ((h.last ht).idle 0 hused)⟩

/-- A client that asks for an extrato and reads it. -/
def extratoClient : List Input := [done 0 5 [], done 0 36 getExtrato, done 1 0 [], done 1 100 [], done 1 0 []]

theorem owned_extratoClient :
    ∃ s : State 2 1, State.start = .ok s ∧ (run State.step s extratoClient).isOk = true ∧
      Throughout State.step Owned s extratoClient := by
  obtain ⟨s, hs, hrun⟩ := exists_of_map_ok (x := (State.start : Except Stop (State 2 1)))
    (f := fun s => (decide (EachStep State.step Returns s extratoClient), (run State.step s extratoClient).isOk))
    (b := (true, true)) (by decide +kernel)
  obtain ⟨hC, hok⟩ := Prod.mk.inj hrun
  exact ⟨s, hs, hok, owned_of_returns hs extratoClient (of_decide_eq_true hC)⟩

end Rinha.Server
