import Mathlib.Data.Fintype.Card
import Mathlib.Data.Fintype.Fin
import Rinha.Library.Runs
import Rinha.Server.LoopProofs

/-! When a database connection is with one request at a time.

`queu_dispatch` releases its connection when a request is answered without the
database, and goes on with it. If the next request is sent a command on it, the
connection is in the pool again while the reply is waited for. This comes about
exactly where, with a connection in hand, a request with a command is behind one
without (`cleanPass`). A wait that fails also puts a connection back that is not
idle. Where neither happens, a connection in the pool is idle and nobody waits for
it, and no two requests wait for one connection (`Exclusive`). -/
namespace Rinha.Server
open Library Request Client

variable {P N : Nat}

namespace State

/-- How many pending reads wait for the reply on the connection. -/
def awaiting (s : State P N) (c : Fin N) : Nat :=
  s.pending.countP fun p => p.op = .dbRead ∧ (s.pool p.slot).dbconn = some c

/-- How many connections are not used. -/
def free (s : State P N) : Nat := (Finset.univ.filter fun c => s.used c = false).card

/-- For each queued request, whether it has a command. -/
def commands (s : State P N) : List Bool := s.queue.contents.map fun i => (queryOf (s.pool i).buffer).isSome

end State

/-- With this many connections, no request with a command comes behind one without
before the connections are used up. -/
def cleanPass : Nat → List Bool → Bool
  | 0, _ => true
  | _ + 1, [] => true
  | free + 1, true :: rest => cleanPass free rest
  | _ + 1, false :: rest => rest.all fun b => !b

theorem cleanPass_nil (free : Nat) : cleanPass free [] = true := by
  cases free <;> rfl

/-- A wait for a reply does not fail while a command is in progress. -/
def WaitSucceeds (s : State P N) (c : Completion) : Prop :=
  ∀ p ∈ s.pending[c.index]?, p.op = .dbRead → 0 ≤ c.result → waitDb c.polls = .ok (-1) →
    ∀ d ∈ (s.pool p.slot).dbconn, s.conns d = none

instance (s : State P N) (c : Completion) : Decidable (WaitSucceeds s c) :=
  inferInstanceAs (Decidable (∀ _ ∈ _, _))

/-- The wait succeeds, and what the dispatch finds is a clean pass. -/
def CleanTurn (s : State P N) : Input → Prop
  | .completes c _ => WaitSucceeds s c ∧ ∀ t ∈ (s.handle c).toOption, cleanPass t.free t.commands = true
  | .interrupted _ => cleanPass s.free s.commands = true
  | .fails => True

instance (s : State P N) : (input : Input) → Decidable (CleanTurn s input)
  | .completes _ _ => inferInstanceAs (Decidable (_ ∧ _))
  | .interrupted _ => inferInstanceAs (Decidable (_ = _))
  | .fails => .isTrue trivial

structure Exclusive (s : State P N) (c : Fin N) : Prop where
  single : s.awaiting c ≤ 1
  unawaited : s.used c = false → s.awaiting c = 0
  idle : s.used c = false → s.conns c = none

/-! ### Counting -/

theorem awaiting_append {s t : State P N} (extra : List (Pending P)) (hpending : t.pending = s.pending ++ extra)
    (hpool : ∀ p ∈ s.pending, t.pool p.slot = s.pool p.slot) (d : Fin N) :
    t.awaiting d = s.awaiting d +
      extra.countP fun p => p.op = .dbRead ∧ (t.pool p.slot).dbconn = some d := by
  unfold State.awaiting
  rw [hpending, List.countP_append]
  congr 1
  refine List.countP_congr fun p hp => ?_
  rw [hpool p hp]

/-- An operation that is not a read of a reply. -/
theorem awaiting_submit {s t : State P N} (op : Op) {i : Fin P} (hne : op ≠ .dbRead)
    (hpending : t.pending = s.pending ++ [⟨op, i⟩])
    (hpool : ∀ p ∈ s.pending, t.pool p.slot = s.pool p.slot) (d : Fin N) : t.awaiting d = s.awaiting d := by
  rw [awaiting_append _ hpending hpool, List.countP_singleton]
  simp [hne]

theorem awaiting_completed {s : State P N} {k : Nat} {p : Pending P} (hp : s.pending[k]? = some p) (d : Fin N) :
    s.awaiting d = (s.completed k).awaiting d +
      if p.op = .dbRead ∧ (s.pool p.slot).dbconn = some d then 1 else 0 := by
  unfold State.awaiting State.completed
  rw [(pending_perm hp).countP_eq, List.countP_cons]
  simp only [decide_eq_true_eq]

theorem free_setUsed {s : State P N} {d : Fin N} (h : s.used d = false) :
    s.free = (s.setUsed d true).free + 1 := by
  have herase : (Finset.univ.filter fun c => (s.setUsed d true).used c = false) =
      (Finset.univ.filter fun c => s.used c = false).erase d := by
    ext c
    by_cases hcd : c = d
    · simp [hcd]
    · simp [hcd, s.setUsed_ne true hcd]
  unfold State.free
  rw [herase, Finset.card_erase_add_one (by simpa using h)]

theorem getDbconn_cases (s : State P N) :
    (∃ d, s.used d = false ∧ s.getDbconn = (some d, s.setUsed d true)) ∨ s.getDbconn = (none, s) := by
  unfold State.getDbconn
  split
  · rename_i d hd
    exact .inl ⟨d, by simpa using List.find?_some hd, rfl⟩
  · exact .inr rfl

/-! ### The head of the queue -/

/-- The head of the queue is in no other place. -/
theorem head_elsewhere {s : State P N} {i : Fin P} {rest : List (Fin P)} (h : Consistent s [])
    (hcons : s.queue.contents = i :: rest) :
    (∀ j ∈ rest, j ≠ i) ∧ ∀ p ∈ s.pending, p.slot ≠ i := by
  have hnodup := h.nodup
  rw [State.places, hcons, List.append_nil] at hnodup
  obtain ⟨_, hqueue, hdisjoint⟩ := List.nodup_append.mp hnodup
  refine ⟨fun j hj heq => (List.nodup_cons.mp hqueue).1 (heq ▸ hj), fun p hp heq => ?_⟩
  exact hdisjoint p.slot (List.mem_map_of_mem hp) i (List.mem_cons_self ..) heq

theorem commands_cons {s t : State P N} {queue : Queue (Fin P)} {i : Fin P} (h : Consistent s [])
    (hcons : s.queue.contents = i :: queue.contents) (hqueue : t.queue = queue)
    (hpool : ∀ j, j ≠ i → t.pool j = s.pool j) :
    s.commands = (queryOf (s.pool i).buffer).isSome :: t.commands := by
  unfold State.commands
  rw [hcons, hqueue, List.map_cons]
  congr 1
  refine List.map_congr_left fun j hj => ?_
  rw [hpool j ((head_elsewhere h hcons).1 j hj)]

theorem awaiting_refuseTurn {s : State P N} {queue : Queue (Fin P)} {i : Fin P} (h : Consistent s [])
    (hcons : s.queue.contents = i :: queue.contents) (c : Fin N) (response : List UInt8) (d : Fin N) :
    (s.refuseTurn queue i c response).awaiting d = s.awaiting d :=
  awaiting_submit .write (by decide) rfl
    (fun p hp => s.refuseTurn_ne queue c response ((head_elsewhere h hcons).2 p hp)) d

theorem awaiting_sendTurn {s : State P N} {queue : Queue (Fin P)} {i : Fin P} (h : Consistent s [])
    (hcons : s.queue.contents = i :: queue.contents) (c : Fin N) (query : Query) (o : Outcome) (d : Fin N) :
    (s.sendTurn queue i c query o).awaiting d = s.awaiting d + if c = d then 1 else 0 := by
  have hself : ((s.sendTurn queue i c query o).pool i).dbconn = some c := by
    rw [State.sendTurn_self]
    rfl
  rw [awaiting_append (s := s) [⟨.dbRead, i⟩] rfl
    (fun p hp => s.sendTurn_ne queue c query o ((head_elsewhere h hcons).2 p hp)) d, List.countP_singleton]
  simp [hself]

/-! ### The dispatch -/

theorem Exclusive.congr {s t : State P N} {d : Fin N} (h : Exclusive s d) (hawaiting : t.awaiting d = s.awaiting d)
    (hused : t.used d = s.used d) (hconns : t.conns d = s.conns d) : Exclusive t d := by
  constructor
  · rw [hawaiting]; exact h.single
  · rw [hawaiting, hused]; exact h.unawaited
  · rw [hconns, hused]; exact h.idle

/-- The connection in hand is idle and nobody waits for it. It is used, or it was
released and the rest of the requests have no command. -/
structure InHand (hand : Option (Fin N)) (s : State P N) : Prop where
  others : ∀ d, hand ≠ some d → Exclusive s d
  unawaited : ∀ c, hand = some c → s.awaiting c = 0
  idle : ∀ c, hand = some c → s.conns c = none
  held : ∀ c, hand = some c → s.used c = true → cleanPass (s.free + 1) s.commands = true
  released : ∀ c, hand = some c → s.used c = false → ∀ b ∈ s.commands, b = false

theorem inHand_getDbconn {s : State P N} (h : ∀ d, Exclusive s d) (hclean : cleanPass s.free s.commands = true) :
    InHand s.getDbconn.1 s.getDbconn.2 := by
  rcases getDbconn_cases s with ⟨d, hd, heq⟩ | heq
  · rw [heq]
    constructor
    · intro e hne
      have hed : e ≠ d := fun h => hne (congrArg some h.symm)
      exact (h e).congr rfl (s.setUsed_ne true hed) rfl
    · rintro c ⟨⟩
      exact (h d).unawaited hd
    · rintro c ⟨⟩
      exact (h d).idle hd
    · rintro c ⟨⟩ _
      rw [← free_setUsed hd]
      exact hclean
    · rintro c ⟨⟩ hused
      rw [State.setUsed_self] at hused
      cases hused
  · rw [heq]
    exact ⟨fun d _ => h d, nofun, nofun, nofun, nofun⟩

/-- What is released at the end is idle. -/
theorem InHand.release {s : State P N} {c : Fin N} (h : InHand (some c) s) (d : Fin N) :
    Exclusive (s.setUsed c false) d := by
  by_cases hdc : d = c
  · subst hdc
    have hzero := h.unawaited d rfl
    exact ⟨hzero.le.trans (Nat.zero_le 1), fun _ => hzero, fun _ => h.idle d rfl⟩
  · exact (h.others d fun heq => hdc (Option.some.inj heq).symm).congr rfl (s.setUsed_ne false hdc) rfl

theorem inHand_kept : KeptByTurns (InHand : Option (Fin N) → State P N → Prop) := by
  constructor
  · intro c s queue h hnil hnil'
    have hcommands : ({s with queue := queue} : State P N).commands = s.commands := by
      unfold State.commands
      rw [hnil, hnil']
    refine ⟨fun d hd => (h.others d hd).congr rfl rfl rfl, h.unawaited, h.idle, ?_, ?_⟩
    · rw [hcommands]
      exact h.held
    · rw [hcommands]
      exact h.released
  · intro c s queue i response hs h hcons hq hnone hr
    have hpool : ∀ j, j ≠ i → (s.refuseTurn queue i c response).pool j = s.pool j :=
      fun j => s.refuseTurn_ne queue c response
    have hawaiting := awaiting_refuseTurn hs hcons c response
    have hcommands := commands_cons hs hcons (t := s.refuseTurn queue i c response) rfl hpool
    rw [hnone] at hcommands
    have hused : (s.refuseTurn queue i c response).used c = false := Function.update_self ..
    constructor
    · intro d hd
      have hdc : d ≠ c := fun h => hd (congrArg some h.symm)
      exact (h.others d hd).congr (hawaiting d) (Function.update_of_ne hdc ..) rfl
    · intro d hd
      rw [hawaiting d]
      exact h.unawaited d hd
    · exact h.idle
    · rintro _ ⟨⟩ hheld
      rw [hused] at hheld
      cases hheld
    · intro _ _ _ b hb
      cases hc : s.used c with
      | true =>
        have hclean := h.held c rfl hc
        rw [hcommands] at hclean
        simpa using List.all_eq_true.mp hclean b hb
      | false => exact h.released c rfl hc b (by rw [hcommands]; exact List.mem_cons_of_mem _ hb)
  · intro c s queue i query o hs h hcons hq hquery
    have hpool : ∀ j, j ≠ i → (s.sendTurn queue i c query o).pool j = s.pool j :=
      fun j => s.sendTurn_ne queue c query o
    have hcommands := commands_cons hs hcons (t := s.sendTurn queue i c query o) rfl hpool
    rw [hquery] at hcommands
    have hheld : s.used c = true := by
      cases hc : s.used c with
      | true => rfl
      | false => exact absurd (h.released c rfl hc true (by rw [hcommands]; exact List.mem_cons_self ..)) (by decide)
    have hawaiting := awaiting_sendTurn hs hcons c query o
    refine inHand_getDbconn (fun d => ?_) ?_
    · by_cases hdc : d = c
      · subst hdc
        have hone : (s.sendTurn queue i d query o).awaiting d = 1 := by
          rw [hawaiting d, h.unawaited d rfl, if_pos rfl]
        have hin : (s.sendTurn queue i d query o).used d = true := hheld
        have hnot : (s.sendTurn queue i d query o).used d ≠ false := by
          rw [hin]
          decide
        exact ⟨hone.le, fun hout => absurd hout hnot, fun hout => absurd hout hnot⟩
      · refine (h.others d fun heq => hdc (Option.some.inj heq).symm).congr ?_ rfl ?_
        · rw [hawaiting d, if_neg (Ne.symm hdc), Nat.add_zero]
        · unfold State.sendTurn
          split
          · exact Function.update_of_ne hdc ..
          · rfl
    · have hclean := h.held c rfl hheld
      rw [hcommands] at hclean
      exact hclean

/-! ### A completion -/

theorem exclusive_completed {s : State P N} {k : Nat} {p : Pending P} (hp : s.pending[k]? = some p)
    {d : Fin N} (h : Exclusive s d) : Exclusive (s.completed k) d ∧
      (p.op = .dbRead → (s.pool p.slot).dbconn = some d → (s.completed k).awaiting d = 0) := by
  have hawaiting := awaiting_completed hp d
  have hsingle := h.single
  refine ⟨⟨by omega, fun hused => ?_, h.idle⟩, fun hop hconn => ?_⟩
  · have := h.unawaited hused
    omega
  · rw [if_pos ⟨hop, hconn⟩] at hawaiting
    omega

/-- A completion submits no read of a reply, and leaves the slots of the other
pending operations alone. -/
theorem handled_pending {s s' : State P N} {c : Completion} {p : Pending P} (hc : Consistent s [p.slot])
    (hs : Handled s c p s') : ∃ extra, s'.pending = s.pending ++ extra ∧ (∀ q ∈ extra, q.op ≠ .dbRead) ∧
      ∀ q ∈ s.pending, s'.pool q.slot = s.pool q.slot := by
  have hpool : ∀ (r : ReqRes (Fin N)), ∀ q ∈ s.pending, Function.update s.pool p.slot r q.slot = s.pool q.slot :=
    fun r q hq => Function.update_of_ne (hc.not_pending hq) ..
  cases hs with
  | failed hresult => exact ⟨[], (List.append_nil _).symm, nofun, fun _ _ => rfl⟩
  | accepted j hop hresult hfree hne =>
    refine ⟨[⟨.read, p.slot⟩, ⟨.accept, j⟩], by simp, by simp, fun q hq => ?_⟩
    have hqj : q.slot ≠ j := by
      rintro rfl
      have hplace := hc.ring_of_place (List.mem_append_left _ (List.mem_map_of_mem hq))
      rw [hfree] at hplace
      cases hplace
    exact (Function.update_of_ne hqj ..).trans (hpool _ q hq)
  | answered response r hop hresult hno hr hresponse => exact ⟨[⟨.write, p.slot⟩], rfl, by simp, hpool _⟩
  | queued queue r hop hresult hbuffer hr hpush => exact ⟨[], (List.append_nil _).symm, nofun, hpool _⟩
  | replied e conn r handler hop hresult hhandler hdbconn hcall => exact ⟨[⟨.write, p.slot⟩], rfl, by simp, hpool _⟩
  | written hop hresult => exact ⟨[⟨.close, p.slot⟩], rfl, by simp, hpool _⟩
  | closed hop hresult => exact ⟨[], (List.append_nil _).symm, nofun, hpool _⟩

theorem awaiting_handled {s s' : State P N} {c : Completion} {p : Pending P} (hc : Consistent s [p.slot])
    (hs : Handled s c p s') (d : Fin N) : s'.awaiting d = s.awaiting d := by
  obtain ⟨extra, hpending, hextra, hpool⟩ := handled_pending hc hs
  rw [awaiting_append extra hpending hpool, List.countP_eq_zero.mpr]
  · rfl
  · intro q hq
    simp [hextra q hq]

/-- What a completion does to the connections: it puts back the one it has a reply from. -/
theorem exclusive_handled {s s' : State P N} {c : Completion} {p : Pending P} (hc : Consistent s [p.slot])
    (h : ∀ d, Exclusive s d)
    (hread : ∀ d, p.op = .dbRead → (s.pool p.slot).dbconn = some d → s.awaiting d = 0)
    (hwait : p.op = .dbRead → 0 ≤ c.result → waitDb c.polls = .ok (-1) →
      ∀ d ∈ (s.pool p.slot).dbconn, s.conns d = none)
    (hs : Handled s c p s') (d : Fin N) : Exclusive s' d := by
  have hawaiting := awaiting_handled hc hs d
  cases hs with
  | failed hresult => exact h d
  | accepted j hop hresult hfree hne => exact (h d).congr hawaiting rfl rfl
  | answered response r hop hresult hno hr hresponse => exact (h d).congr hawaiting rfl rfl
  | queued queue r hop hresult hbuffer hr hpush => exact (h d).congr hawaiting rfl rfl
  | replied e conn r handler hop hresult hhandler hdbconn hcall =>
    by_cases hde : d = e
    · subst hde
      have hzero := hread d hop hdbconn
      have hconn : conn = none := by
        rcases handler_cases hcall with ⟨hfail, rfl, _⟩ | ⟨_, rfl, _⟩
        · exact hwait hop hresult hfail d hdbconn
        · rfl
      refine ⟨by omega, fun _ => by omega, fun _ => ?_⟩
      rw [hconn]
      exact Function.update_self ..
    · exact (h d).congr hawaiting (Function.update_of_ne hde ..) (Function.update_of_ne hde ..)
  | written hop hresult => exact (h d).congr hawaiting rfl rfl
  | closed hop hresult => exact (h d).congr hawaiting rfl rfl

end Rinha.Server
