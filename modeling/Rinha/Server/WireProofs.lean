import Rinha.Server.Exclusive
import Rinha.Server.Fatal
import Rinha.Server.Noninterference
import Rinha.Server.Wire

/-! That a connection is sent one response, and when it is sent all of it.

Until its write has completed nothing is sent on a connection, and by then one response
was given for it (`Staged`). So it is sent the whole of it exactly when the write is
whole. A run in which the loop does not return delivers every response exactly when
every write is whole. -/
namespace Rinha.Server
open Library Request Client

variable {P N : Nat}

/-! ### The record -/

theorem given_append (log extra : List Obs) (client : Nat) :
    given (log ++ extra) client = given log client ++ given extra client := List.filterMap_append ..

theorem given_wrote (client : Nat) (buffer : List UInt8) (source : PGconn) (client' : Nat) :
    given [.wrote client buffer source] client' = if client = client' then [responseText buffer] else [] := by
  by_cases h : client = client' <;> simp [given, h]

theorem given_received (client : Nat) (buffer : List UInt8) (rest : List Obs) (client' : Nat) :
    given (.received client buffer :: rest) client' = given rest client' := rfl

theorem Asked.mono {log : List Obs} {client : Nat} (h : Asked log client) (extra : List Obs) :
    Asked (log ++ extra) client := by
  obtain ⟨request, hmem⟩ := h
  exact ⟨request, List.mem_append_left _ hmem⟩

theorem asked_append {log extra : List Obs} {client : Nat}
    (h : ∀ request, .received client request ∉ extra) : Asked (log ++ extra) client ↔ Asked log client := by
  constructor
  · intro hasked
    obtain ⟨request, hmem⟩ := hasked
    exact ⟨request, (List.mem_append.mp hmem).resolve_right (h request)⟩
  · exact fun hasked => hasked.mono extra

/-! ### The stages of a connection -/

/-- Nothing was sent and nothing failed on the connection, and it is open. -/
structure Untouched (net : Net) (client : Nat) : Prop where
  sent : net.sent client = []
  failed : net.failed client = false
  closed : net.closed client = false

/-- What holds of a slot's connection while an operation on the slot is pending. -/
def Stage (net : Net) (s : State P N) : Op → Fin P → Prop
  | .accept, _ => True
  | .read, i => s.client i < s.accepted ∧ given s.log (s.client i) = [] ∧ Untouched net (s.client i)
  | .dbRead, i => s.client i < s.accepted ∧ given s.log (s.client i) = [] ∧ Untouched net (s.client i) ∧
      Asked s.log (s.client i)
  | .write, i => s.client i < s.accepted ∧
      given s.log (s.client i) = [responseText (s.pool i).buffer] ∧ Untouched net (s.client i) ∧
      Asked s.log (s.client i)
  | .close, i => s.client i < s.accepted

/-- The slot is with an operation on a connection, or queued. -/
def Busy (s : State P N) (i : Fin P) : Prop :=
  (∃ p ∈ s.pending, p.op ≠ .accept ∧ p.slot = i) ∨ i ∈ s.queue.contents

structure Staged (net : Net) (s : State P N) : Prop where
  pending : ∀ p ∈ s.pending, Stage net s p.op p.slot
  queued : ∀ i ∈ s.queue.contents, Stage net s .dbRead i
  apart : ∀ i j, Busy s i → Busy s j → s.client i = s.client j → i = j
  beyond : ∀ client, s.accepted ≤ client → given s.log client = [] ∧ Untouched net client

theorem Stage.lt {net : Net} {s : State P N} {op : Op} {i : Fin P} (h : Stage net s op i) (hop : op ≠ .accept) :
    s.client i < s.accepted := by
  cases op with
  | accept => exact absurd rfl hop
  | read => exact h.1
  | dbRead => exact h.1
  | write => exact h.1
  | close => exact h

theorem Staged.lt {net : Net} {s : State P N} {i : Fin P} (h : Staged net s) (hi : Busy s i) :
    s.client i < s.accepted := by
  rcases hi with ⟨p, hp, hop, rfl⟩ | hi
  · exact (h.pending p hp).lt hop
  · exact (h.queued i hi).1

/-- What is not of the connection `x` is as it was. -/
structure SameBut (x : Nat) (net net' : Net) (s s' : State P N) : Prop where
  client : s'.client = s.client
  accepted : s'.accepted = s.accepted
  responses : ∀ y, y ≠ x → given s'.log y = given s.log y
  asked : ∀ y, y ≠ x → (Asked s'.log y ↔ Asked s.log y)
  sent : ∀ y, y ≠ x → net'.sent y = net.sent y
  failed : ∀ y, y ≠ x → net'.failed y = net.failed y
  closed : ∀ y, y ≠ x → net'.closed y = net.closed y

theorem SameBut.untouched {x : Nat} {net net' : Net} {s s' : State P N} (h : SameBut x net net' s s') {y : Nat}
    (hy : y ≠ x) (hu : Untouched net y) : Untouched net' y :=
  ⟨(h.sent y hy).trans hu.sent, (h.failed y hy).trans hu.failed, (h.closed y hy).trans hu.closed⟩

/-- The stage of a slot with another connection is what it was. -/
theorem SameBut.stage {x : Nat} {net net' : Net} {s s' : State P N} (h : SameBut x net net' s s') {op : Op}
    {j : Fin P} (hj : s.client j ≠ x) (hpool : s'.pool j = s.pool j) (hs : Stage net s op j) :
    Stage net' s' op j := by
  have hclient : s'.client j = s.client j := congrFun h.client j
  cases op with
  | accept => trivial
  | read =>
    obtain ⟨hlt, hgiven, hu⟩ := hs
    simp only [Stage, hclient, h.accepted, h.responses _ hj]
    exact ⟨hlt, hgiven, h.untouched hj hu⟩
  | dbRead =>
    obtain ⟨hlt, hgiven, hu, hasked⟩ := hs
    simp only [Stage, hclient, h.accepted, h.responses _ hj]
    exact ⟨hlt, hgiven, h.untouched hj hu, (h.asked _ hj).mpr hasked⟩
  | write =>
    obtain ⟨hlt, hgiven, hu, hasked⟩ := hs
    simp only [Stage, hclient, h.accepted, h.responses _ hj, hpool]
    exact ⟨hlt, hgiven, h.untouched hj hu, (h.asked _ hj).mpr hasked⟩
  | close =>
    simp only [Stage, hclient, h.accepted]
    exact hs

/-- One slot goes to its next place, or to none; the others stay in theirs. -/
theorem Staged.replace {net net' : Net} {s s' : State P N} {i : Fin P} (h : Staged net s)
    (hsame : SameBut (s.client i) net net' s s') (hlt : s.client i < s.accepted)
    (hapart : ∀ j, Busy s j → j ≠ i → s.client j ≠ s.client i)
    (hpending : ∀ p ∈ s'.pending, (p ∈ s.pending ∧ p.slot ≠ i ∧ s'.pool p.slot = s.pool p.slot) ∨
      (p.slot = i ∧ Stage net' s' p.op i))
    (hqueued : ∀ j ∈ s'.queue.contents, (j ∈ s.queue.contents ∧ j ≠ i ∧ s'.pool j = s.pool j) ∨
      (j = i ∧ Stage net' s' .dbRead i)) : Staged net' s' := by
  have hbusy : ∀ j, Busy s' j → (Busy s j ∧ j ≠ i) ∨ j = i := by
    intro j hj
    rcases hj with ⟨p, hp, hop, rfl⟩ | hj
    · rcases hpending p hp with ⟨hold, hne, _⟩ | ⟨heq, _⟩
      · exact .inl ⟨.inl ⟨p, hold, hop, rfl⟩, hne⟩
      · exact .inr heq
    · rcases hqueued j hj with ⟨hold, hne, _⟩ | ⟨heq, _⟩
      · exact .inl ⟨.inr hold, hne⟩
      · exact .inr heq
  refine ⟨fun p hp => ?_, fun j hj => ?_, fun a b ha hb heq => ?_, fun y hy => ?_⟩
  · rcases hpending p hp with ⟨hold, hne, hpool⟩ | ⟨heq, hstage⟩
    · by_cases hop : p.op = .accept
      · rw [hop]
        trivial
      · exact hsame.stage (hapart p.slot (.inl ⟨p, hold, hop, rfl⟩) hne) hpool (h.pending p hold)
    · rw [heq]
      exact hstage
  · rcases hqueued j hj with ⟨hold, hne, hpool⟩ | ⟨rfl, hstage⟩
    · exact hsame.stage (hapart j (.inr hold) hne) hpool (h.queued j hold)
    · exact hstage
  · rw [hsame.client] at heq
    rcases hbusy a ha with ⟨ha, hai⟩ | rfl
    · rcases hbusy b hb with ⟨hb, hbi⟩ | rfl
      · exact h.apart a b ha hb heq
      · exact absurd heq (hapart a ha hai)
    · rcases hbusy b hb with ⟨hb, hbi⟩ | rfl
      · exact absurd heq.symm (hapart b hb hbi)
      · rfl
  · rw [hsame.accepted] at hy
    have hne : y ≠ s.client i := (lt_of_lt_of_le hlt hy).ne'
    obtain ⟨hgiven, hu⟩ := h.beyond y hy
    exact ⟨(hsame.responses y hne).trans hgiven, hsame.untouched hne hu⟩

/-! ### What was delivered -/

/-- A connection on which nothing was sent, and which is open. -/
theorem Untouched.delivered {log : List Obs} {net : Net} {client : Nat} (h : Untouched net client)
    (hone : (given log client).length ≤ 1) : Delivered log net client := by
  refine ⟨hone, ?_, fun hclosed => ?_⟩
  · rw [h.sent]
    exact List.nil_prefix
  · rw [h.closed] at hclosed
    cases hclosed

theorem SameBut.delivered {x : Nat} {net net' : Net} {s s' : State P N} (h : SameBut x net net' s s') {y : Nat}
    (hy : y ≠ x) : Delivered s'.log net' y ↔ Delivered s.log net y := by
  have hiff : ∀ {log log' : List Obs} {net net' : Net}, given log' y = given log y →
      (Asked log y → Asked log' y) → net'.sent y = net.sent y → net'.failed y = net.failed y →
      net'.closed y = net.closed y → Delivered log' net' y → Delivered log net y := by
    intro log log' net net' hgiven hasked hsent hfailed hclosed hd
    constructor
    · rw [← hgiven]
      exact hd.one
    · rw [← hgiven, ← hsent]
      exact hd.part
    · intro hc hf ha
      rw [← hgiven, ← hsent]
      exact hd.whole (hclosed.trans hc) (hfailed.trans hf) (hasked ha)
  constructor
  · exact hiff (h.responses y hy) (h.asked y hy).mpr (h.sent y hy) (h.failed y hy) (h.closed y hy)
  · exact hiff (h.responses y hy).symm (h.asked y hy).mp (h.sent y hy).symm (h.failed y hy).symm (h.closed y hy).symm

/-- Where one connection changes, everything is delivered if that connection's is. -/
theorem SameBut.all {x : Nat} {net net' : Net} {s s' : State P N} (h : SameBut x net net' s s')
    (hall : ∀ y, Delivered s.log net y) : (∀ y, Delivered s'.log net' y) ↔ Delivered s'.log net' x := by
  constructor
  · exact fun hall' => hall' x
  · intro hx y
    by_cases hy : y = x
    · rw [hy]
      exact hx
    · exact (h.delivered hy).mpr (hall y)

/-- Where one connection changes, and has nothing undelivered before and after. -/
theorem SameBut.all_iff {x : Nat} {net net' : Net} {s s' : State P N} (h : SameBut x net net' s s')
    (hx : Delivered s.log net x) (hx' : Delivered s'.log net' x) :
    (∀ y, Delivered s'.log net' y) ↔ ∀ y, Delivered s.log net y := by
  constructor
  · intro hall y
    by_cases hy : y = x
    · rw [hy]
      exact hx
    · exact (h.delivered hy).mp (hall y)
  · exact fun hall => (h.all hall).mpr hx'

/-! ### The dispatch -/

/-- Fewer places. -/
theorem Staged.sub {net : Net} {s s' : State P N} (h : Staged net s) (hclient : s'.client = s.client)
    (haccepted : s'.accepted = s.accepted) (hlog : s'.log = s.log) (hpool : s'.pool = s.pool)
    (hpending : ∀ p ∈ s'.pending, p ∈ s.pending) (hqueued : ∀ j ∈ s'.queue.contents, j ∈ s.queue.contents) :
    Staged net s' := by
  have hstage : ∀ {op j}, Stage net s op j → Stage net s' op j := by
    intro op j hj
    cases op with
    | accept => trivial
    | _ =>
      simp only [Stage, hclient, haccepted, hlog, hpool]
      exact hj
  have hbusy : ∀ {j}, Busy s' j → Busy s j := by
    intro j hj
    rcases hj with ⟨p, hp, hop, rfl⟩ | hj
    · exact .inl ⟨p, hpending p hp, hop, rfl⟩
    · exact .inr (hqueued j hj)
  refine ⟨fun p hp => hstage (h.pending p (hpending p hp)), fun j hj => hstage (h.queued j (hqueued j hj)),
    fun a b ha hb heq => ?_, fun y hy => ?_⟩
  · rw [hclient] at heq
    exact h.apart a b (hbusy ha) (hbusy hb) heq
  · rw [hlog]
    rw [haccepted] at hy
    exact h.beyond y hy

theorem Staged.getDbconn {net : Net} {s : State P N} (h : Staged net s) : Staged net s.getDbconn.2 := by
  rcases getDbconn_cases s with ⟨c, _, heq⟩ | heq
  · rw [heq]
    exact h.sub rfl rfl rfl rfl (fun _ hp => hp) fun _ hj => hj
  · rw [heq]
    exact h

theorem getDbconn_log (s : State P N) : s.getDbconn.2.log = s.log := by
  unfold State.getDbconn
  split <;> rfl

/-- The first of the queued slots has a connection of its own. -/
theorem Staged.head {net : Net} {s : State P N} {i : Fin P} {rest : List (Fin P)} (h : Staged net s)
    (hcons : s.queue.contents = i :: rest) :
    Stage net s .dbRead i ∧ ∀ j, Busy s j → j ≠ i → s.client j ≠ s.client i := by
  have hmem : i ∈ s.queue.contents := by
    rw [hcons]
    exact List.mem_cons_self ..
  exact ⟨h.queued i hmem, fun j hj hne heq => hne (h.apart j i hj (.inr hmem) heq)⟩

/-- A response is given for a slot's connection, and its write asked for. -/
theorem Staged.answer {net : Net} {s t : State P N} {i : Fin P} {extra : List Obs} (h : Staged net s)
    (hlt : s.client i < s.accepted) (hgiven : given s.log (s.client i) = []) (hu : Untouched net (s.client i))
    (hapart : ∀ j, Busy s j → j ≠ i → s.client j ≠ s.client i) (hclient : t.client = s.client)
    (haccepted : t.accepted = s.accepted) (hlog : t.log = s.log ++ extra)
    (hextra : ∀ y, given extra y = if s.client i = y then [responseText (t.pool i).buffer] else [])
    (hnone : ∀ y, y ≠ s.client i → ∀ request, .received y request ∉ extra)
    (hasked : Asked t.log (s.client i)) (hpending : t.pending = s.pending ++ [⟨.write, i⟩])
    (hother : ∀ q ∈ s.pending, q.slot ≠ i ∧ t.pool q.slot = s.pool q.slot)
    (hqueued : ∀ j ∈ t.queue.contents, j ∈ s.queue.contents ∧ j ≠ i ∧ t.pool j = s.pool j) :
    Staged net t ∧ ((∀ y, Delivered t.log net y) ↔ ∀ y, Delivered s.log net y) := by
  have hsame : SameBut (s.client i) net net s t := by
    refine ⟨hclient, haccepted, fun y hy => ?_, fun y hy => ?_, fun _ _ => rfl, fun _ _ => rfl, fun _ _ => rfl⟩
    · rw [hlog, given_append, hextra, if_neg (Ne.symm hy), List.append_nil]
    · rw [hlog]
      exact asked_append (hnone y hy)
  have hgiven' : given t.log (s.client i) = [responseText (t.pool i).buffer] := by
    rw [hlog, given_append, hextra, if_pos rfl, hgiven, List.nil_append]
  refine ⟨h.replace hsame hlt hapart (fun q hq => ?_) (fun j hj => .inl (hqueued j hj)), ?_⟩
  · rw [hpending] at hq
    rcases List.mem_append.mp hq with hq | hq
    · exact .inl ⟨hq, hother q hq⟩
    · rw [List.mem_singleton.mp hq]
      refine .inr ⟨rfl, ?_⟩
      simp only [Stage, hclient, haccepted]
      exact ⟨hlt, hgiven', hu, hasked⟩
  · exact hsame.all_iff (hu.delivered (by rw [hgiven]; exact Nat.zero_le 1)) (hu.delivered (by rw [hgiven']; rfl))

theorem Staged.refuseTurn {net : Net} {s : State P N} {queue : Queue (Fin P)} {i : Fin P} {c : Fin N}
    {response : List UInt8} (hs : Consistent s []) (h : Staged net s)
    (hcons : s.queue.contents = i :: queue.contents) :
    Staged net (s.refuseTurn queue i c response) ∧
      ((∀ y, Delivered (s.refuseTurn queue i c response).log net y) ↔ ∀ y, Delivered s.log net y) := by
  obtain ⟨⟨hlt, hgiven, hu, hasked⟩, hapart⟩ := h.head hcons
  obtain ⟨hqueue, hpending⟩ := head_elsewhere hs hcons
  have hself : (s.refuseTurn queue i c response).pool i = {declined (s.pool i) c response with lastEvent := .writing} :=
    Function.update_self ..
  refine h.answer hlt hgiven hu hapart rfl rfl rfl (fun y => ?_) (fun y _ => by simp) (hasked.mono _) rfl
    (fun q hq => ⟨hpending q hq, s.refuseTurn_ne queue c response (hpending q hq)⟩) fun j hj => ?_
  · rw [hself]
    exact given_wrote ..
  · exact ⟨by rw [hcons]; exact List.mem_cons_of_mem i hj, hqueue j hj,
      s.refuseTurn_ne queue c response (hqueue j hj)⟩

theorem Staged.sendTurn {net : Net} {s : State P N} {queue : Queue (Fin P)} {i : Fin P} {c : Fin N}
    {query : Query} {o : Outcome} (hs : Consistent s []) (h : Staged net s)
    (hcons : s.queue.contents = i :: queue.contents) :
    Staged net (s.sendTurn queue i c query o) ∧
      ((∀ y, Delivered (s.sendTurn queue i c query o).log net y) ↔ ∀ y, Delivered s.log net y) := by
  obtain ⟨⟨hlt, hgiven, hu, hasked⟩, hapart⟩ := h.head hcons
  obtain ⟨hqueue, hpending⟩ := head_elsewhere hs hcons
  have hlog : ∃ extra, (s.sendTurn queue i c query o).log = s.log ++ extra ∧ (∀ y, given extra y = []) ∧
      ∀ y request, .received y request ∉ extra := by
    by_cases hsends : s.Sends c o
    · exact ⟨_, if_pos hsends, fun _ => rfl, by simp⟩
    · exact ⟨[], (if_neg hsends).trans (List.append_nil _).symm, fun _ => rfl, fun _ _ => List.not_mem_nil⟩
  obtain ⟨extra, hlog, hextra, hnone⟩ := hlog
  have hgiven' : ∀ y, given (s.sendTurn queue i c query o).log y = given s.log y := by
    intro y
    rw [hlog, given_append, hextra, List.append_nil]
  have hasked' : ∀ y, Asked (s.sendTurn queue i c query o).log y ↔ Asked s.log y := by
    intro y
    rw [hlog]
    exact asked_append (hnone y)
  have hsame : SameBut (s.client i) net net s (s.sendTurn queue i c query o) :=
    ⟨rfl, rfl, fun y _ => hgiven' y, fun y _ => hasked' y, fun _ _ => rfl, fun _ _ => rfl, fun _ _ => rfl⟩
  refine ⟨h.replace hsame hlt hapart (fun p hp => ?_) (fun j hj => .inl ?_), ?_⟩
  · rcases List.mem_append.mp hp with hp | hp
    · exact .inl ⟨hp, hpending p hp, s.sendTurn_ne queue c query o (hpending p hp)⟩
    · cases List.mem_singleton.mp hp
      exact .inr ⟨rfl, hlt, (hgiven' _).trans hgiven, hu, (hasked' _).mpr hasked⟩
  · exact ⟨by rw [hcons]; exact List.mem_cons_of_mem i hj, hqueue j hj,
      s.sendTurn_ne queue c query o (hqueue j hj)⟩
  · exact hsame.all_iff (hu.delivered (by rw [hgiven]; exact Nat.zero_le 1))
      (hu.delivered (by rw [hgiven', hgiven]; exact Nat.zero_le 1))

/-- A dispatch keeps the stages, and what was delivered. -/
theorem staged_dispatch {net : Net} {s s' : State P N} (hs : Consistent s []) (h : Staged net s)
    {outcomes : Nat → Outcome} (hd : s.queuDispatch outcomes = .ok s') :
    Staged net s' ∧ ((∀ y, Delivered s'.log net y) ↔ ∀ y, Delivered s.log net y) := by
  have hkept : KeptByTurns fun (_ : Option (Fin N)) (t : State P N) =>
      Staged net t ∧ ((∀ y, Delivered t.log net y) ↔ ∀ y, Delivered s.log net y) := by
    refine ⟨fun c t queue ht _ hnil => ?_, fun c t queue i response hc ht hcons _ _ _ => ?_,
      fun c t queue i query o hc ht hcons _ _ => ?_⟩
    · refine ⟨ht.1.sub rfl rfl rfl rfl (fun _ hp => hp) fun j hj => ?_, ht.2⟩
      replace hj : j ∈ queue.contents := hj
      rw [hnil] at hj
      cases hj
    · obtain ⟨hstaged, hiff⟩ := @Staged.refuseTurn P N net t queue i c response hc ht.1 hcons
      exact ⟨hstaged, hiff.trans ht.2⟩
    · obtain ⟨hstaged, hiff⟩ := @Staged.sendTurn P N net t queue i c query o hc ht.1 hcons
      refine ⟨hstaged.getDbconn, ?_⟩
      rw [getDbconn_log]
      exact hiff.trans ht.2
  refine queuDispatch_keeps (Q := fun t => Staged net t ∧
    ((∀ y, Delivered t.log net y) ↔ ∀ y, Delivered s.log net y)) hkept (fun _ ht => ht) (fun c t ht => ?_) hs ?_ hd
  · exact ⟨ht.1.sub rfl rfl rfl rfl (fun _ hp => hp) fun _ hj => hj, ht.2⟩
  · refine ⟨h.getDbconn, ?_⟩
    rw [getDbconn_log]

/-! ### A completion -/

/-- A failure on a connection. -/
theorem SameBut.fail (net : Net) (s : State P N) (x : Nat) : SameBut x net (net.fail x) s s :=
  ⟨rfl, rfl, fun _ _ => rfl, fun _ _ => Iff.rfl, fun _ _ => rfl, fun _ hy => Function.update_of_ne hy ..,
    fun _ _ => rfl⟩

theorem Delivered.fail {log : List Obs} {net : Net} {x : Nat} (h : Delivered log net x) :
    Delivered log (net.fail x) x := by
  refine ⟨h.one, h.part, fun _ hfailed => ?_⟩
  have htrue : (net.fail x).failed x = true := Function.update_self ..
  rw [htrue] at hfailed
  cases hfailed

/-- A write that has completed, behind which the connection is closed. -/
theorem SameBut.written (net : Net) {s t : State P N} (x : Nat) (text : List UInt8) (hclient : t.client = s.client)
    (haccepted : t.accepted = s.accepted) (hlog : t.log = s.log) :
    SameBut x net ((net.send x text).close x) s t := by
  refine ⟨hclient, haccepted, fun _ _ => by rw [hlog], fun _ _ => by rw [hlog], fun _ hy => ?_, fun _ _ => rfl,
    fun _ hy => ?_⟩
  · exact Function.update_of_ne hy ..
  · exact Function.update_of_ne hy ..

/-- It delivers the response when it has sent all of it. -/
theorem delivered_written {log : List Obs} {net : Net} {x k : Nat} {text : List UInt8} (hu : Untouched net x)
    (hgiven : given log x = [text]) (hasked : Asked log x) :
    Delivered log ((net.send x (text.take k)).close x) x ↔ text.length ≤ k := by
  have hsent : ((net.send x (text.take k)).close x).sent x = text.take k := by
    show Function.update net.sent x (net.sent x ++ text.take k) x = _
    rw [Function.update_self, hu.sent, List.nil_append]
  constructor
  · intro h
    have hwhole := h.whole (Function.update_self ..) hu.failed hasked
    rw [hgiven, hsent] at hwhole
    have htake := congrArg List.length (List.singleton_injective hwhole)
    rw [List.length_take] at htake
    omega
  · intro hk
    rw [List.take_of_length_le hk] at hsent ⊢
    refine ⟨by rw [hgiven]; exact Nat.le_refl 1, ?_, fun _ _ _ => ?_⟩
    · rw [hsent, hgiven, List.flatten_singleton]
    · rw [hsent, hgiven]

section Completion
variable {net : Net} {s s' : State P N} {c : Completion} {p : Pending P}

theorem complete_read (net : Net) (s : State P N) (hop : p.op = .read) (hresult : 0 ≤ c.result) :
    net.complete s c p = net := by
  simp only [Net.complete, hop]
  exact if_neg (not_lt.mpr hresult)

theorem complete_accept (net : Net) (s : State P N) (hop : p.op = .accept) : net.complete s c p = net := by
  simp only [Net.complete, hop]

theorem complete_dbRead (net : Net) (s : State P N) (hop : p.op = .dbRead) : net.complete s c p = net := by
  simp only [Net.complete, hop]

theorem complete_close (net : Net) (s : State P N) (hop : p.op = .close) (hresult : 0 ≤ c.result) :
    net.complete s c p = net := by
  simp only [Net.complete, hop]
  exact if_neg (not_lt.mpr hresult)

theorem complete_write (net : Net) (s : State P N) (hop : p.op = .write) (hresult : 0 ≤ c.result) :
    net.complete s c p = (net.send (s.client p.slot)
      ((responseText (s.pool p.slot).buffer).take c.result.toNat)).close (s.client p.slot) := by
  simp only [Net.complete, hop]
  exact if_neg (not_lt.mpr hresult)

theorem complete_failed (net : Net) (s : State P N) (hresult : c.result < 0) :
    net.complete s c p = net ∨ (p.op ≠ .accept ∧ net.complete s c p = net.fail (s.client p.slot)) := by
  cases hop : p.op with
  | accept => exact .inl (complete_accept net s hop)
  | dbRead => exact .inl (complete_dbRead net s hop)
  | _ =>
    refine .inr ⟨by simp, ?_⟩
    simp only [Net.complete, hop]
    exact if_pos hresult

/-- A connection is accepted, and gets a number that none had before. -/
theorem Staged.accept {j : Fin P} (hc : Consistent s [p.slot]) (h : Staged net s)
    (hclient : s'.client = Function.update s.client p.slot s.accepted) (haccepted : s'.accepted = s.accepted + 1)
    (hlog : s'.log = s.log) (hpool : ∀ q ∈ s.pending, s'.pool q.slot = s.pool q.slot)
    (hpending : s'.pending = s.pending ++ [⟨.read, p.slot⟩] ++ [⟨.accept, j⟩]) (hqueue : s'.queue = s.queue) :
    Staged net s' := by
  have hold : ∀ {k}, k ≠ p.slot → s'.client k = s.client k := by
    intro k hk
    rw [hclient]
    exact Function.update_of_ne hk ..
  have hnew : s'.client p.slot = s.accepted := by
    rw [hclient]
    exact Function.update_self ..
  have hbusy : ∀ k, Busy s' k → (Busy s k ∧ k ≠ p.slot) ∨ k = p.slot := by
    intro k hk
    rcases hk with ⟨q, hq, hop, rfl⟩ | hk
    · rw [hpending] at hq
      rcases List.mem_append.mp hq with hq | hq
      · rcases List.mem_append.mp hq with hq | hq
        · exact .inl ⟨.inl ⟨q, hq, hop, rfl⟩, hc.not_pending hq⟩
        · rw [List.mem_singleton.mp hq]
          exact .inr rfl
      · rw [List.mem_singleton.mp hq] at hop
        exact absurd rfl hop
    · rw [hqueue] at hk
      exact .inl ⟨.inr hk, hc.not_queued hk⟩
  have hstage : ∀ {op k}, k ≠ p.slot → (op = .write → s'.pool k = s.pool k) → Stage net s op k →
      Stage net s' op k := by
    intro op k hk hpoolk hs
    cases op with
    | accept => trivial
    | close =>
      simp only [Stage, hold hk, haccepted]
      exact Nat.lt_succ_of_lt hs
    | write =>
      simp only [Stage, hold hk, haccepted, hlog, hpoolk rfl]
      exact ⟨Nat.lt_succ_of_lt hs.1, hs.2⟩
    | _ =>
      simp only [Stage, hold hk, haccepted, hlog]
      exact ⟨Nat.lt_succ_of_lt hs.1, hs.2⟩
  refine ⟨fun q hq => ?_, fun k hk => ?_, fun a b ha hb heq => ?_, fun y hy => ?_⟩
  · rw [hpending] at hq
    rcases List.mem_append.mp hq with hq | hq
    · rcases List.mem_append.mp hq with hq | hq
      · exact hstage (hc.not_pending hq) (fun _ => hpool q hq) (h.pending q hq)
      · rw [List.mem_singleton.mp hq]
        simp only [Stage, hnew, haccepted, hlog]
        exact ⟨Nat.lt_succ_self _, h.beyond s.accepted le_rfl⟩
    · rw [List.mem_singleton.mp hq]
      trivial
  · rw [hqueue] at hk
    exact hstage (hc.not_queued hk) (fun heq => by cases heq) (h.queued k hk)
  · rcases hbusy a ha with ⟨ha, hne⟩ | rfl
    · rcases hbusy b hb with ⟨hb, hne'⟩ | rfl
      · rw [hold hne, hold hne'] at heq
        exact h.apart a b ha hb heq
      · rw [hold hne, hnew] at heq
        exact absurd heq (h.lt ha).ne
    · rcases hbusy b hb with ⟨hb, hne'⟩ | rfl
      · rw [hnew, hold hne'] at heq
        exact absurd heq (h.lt hb).ne'
      · rfl
  · rw [haccepted] at hy
    rw [hlog]
    exact h.beyond y (Nat.le_of_succ_le hy)

/-- A completion takes the connection to its next stage, and everything is delivered
after it if a write that has completed was whole. -/
theorem staged_handled (hc : Consistent s [p.slot]) (h : Staged net s) (hstage : Stage net s p.op p.slot)
    (hapart : p.op ≠ .accept → ∀ j, Busy s j → j ≠ p.slot → s.client j ≠ s.client p.slot)
    (hs : Handled s c p s') : Staged (net.complete s c p) s' ∧ ((∀ y, Delivered s.log net y) →
      ((∀ y, Delivered s'.log (net.complete s c p) y) ↔ (p.op = .write → 0 ≤ c.result →
        (responseText (s.pool p.slot).buffer).length ≤ c.result.toNat))) := by
  have hother : ∀ q ∈ s.pending, q.slot ≠ p.slot := fun q hq => hc.not_pending hq
  have hqueued : ∀ j ∈ s.queue.contents, j ≠ p.slot := fun j hj => hc.not_queued hj
  have hpool : ∀ {r : ReqRes (Fin N)} {j}, j ≠ p.slot → Function.update s.pool p.slot r j = s.pool j :=
    fun hj => Function.update_of_ne hj ..
  have hvacuous : ∀ {op}, p.op = op → op ≠ .write → (p.op = .write → 0 ≤ c.result →
      (responseText (s.pool p.slot).buffer).length ≤ c.result.toNat) :=
    fun hop hne hwrite => absurd (hop.symm.trans hwrite) hne
  cases hs with
  | failed hresult =>
    have htrue : p.op = .write → 0 ≤ c.result →
        (responseText (s.pool p.slot).buffer).length ≤ c.result.toNat :=
      fun _ hge => absurd hresult (not_lt.mpr hge)
    rcases complete_failed net s (p := p) hresult with heq | ⟨hop, heq⟩
    · rw [heq]
      exact ⟨h, fun hall => iff_of_true hall htrue⟩
    · rw [heq]
      have hsame := SameBut.fail net s (s.client p.slot)
      refine ⟨h.replace hsame (hstage.lt hop) (hapart hop) (fun q hq => .inl ⟨hq, hother q hq, rfl⟩)
        fun j hj => .inl ⟨hj, hqueued j hj, rfl⟩, fun hall => iff_of_true ?_ htrue⟩
      exact (hsame.all hall).mpr (hall _).fail
  | accepted j hop hresult hfree hne =>
    rw [complete_accept net s hop]
    refine ⟨h.accept hc rfl rfl rfl (fun q hq => ?_) rfl rfl,
      fun hall => iff_of_true hall (hvacuous hop (by decide))⟩
    have hqj : q.slot ≠ j := by
      rintro rfl
      have hring := hc.ring_of_place (List.mem_append_left _ (List.mem_map_of_mem hq))
      rw [hfree] at hring
      cases hring
    exact (Function.update_of_ne hqj ..).trans (hpool (hother q hq))
  | answered response r hop hresult hno hr hresponse =>
    rw [complete_read net s hop hresult]
    rw [hop] at hstage
    obtain ⟨hlt, hgiven, hu⟩ := hstage
    have hanswer := h.answer (t := {s.afterRead p.slot c.data with
        pool := Function.update s.pool p.slot {r with lastEvent := .writing}
        pending := s.pending ++ [⟨.write, p.slot⟩]
        log := (s.afterRead p.slot c.data).log ++ [.wrote (s.client p.slot) r.buffer none]})
      hlt hgiven hu (hapart (by rw [hop]; decide)) rfl rfl (List.append_assoc ..) (fun y => ?_)
      (fun y hy => by simp [hy]) ⟨_, List.mem_append_left _ (List.mem_append_right _ (List.mem_singleton_self _))⟩ rfl
      (fun q hq => ⟨hother q hq, hpool (hother q hq)⟩) (fun j hj => ⟨hj, hqueued j hj, hpool (hqueued j hj)⟩)
    · exact ⟨hanswer.1, fun hall => iff_of_true (hanswer.2.mpr hall) (hvacuous hop (by decide))⟩
    · rw [List.singleton_append, given_received, given_wrote]
      show _ = if _ then [responseText (Function.update s.pool p.slot _ p.slot).buffer] else []
      rw [Function.update_self]
  | queued queue r hop hresult hbuffer hr hpush =>
    rw [complete_read net s hop hresult]
    rw [hop] at hstage
    obtain ⟨hlt, hgiven, hu⟩ := hstage
    have hgiven' : ∀ y, given (s.afterRead p.slot c.data).log y = given s.log y := by
      intro y
      show given (s.log ++ [_]) y = _
      rw [given_append, given_received]
      exact List.append_nil _
    have hsame : SameBut (s.client p.slot) net net s {s.afterRead p.slot c.data with
        pool := Function.update s.pool p.slot r
        queue := queue} := by
      refine ⟨rfl, rfl, fun y _ => hgiven' y, fun y hy => asked_append (by simp [hy]), fun _ _ => rfl,
        fun _ _ => rfl, fun _ _ => rfl⟩
    obtain ⟨queue', _, hpush', hsub, _⟩ := push_contents hc.sound p.slot
    rw [hpush] at hpush'
    cases hpush'
    refine ⟨h.replace hsame hlt (hapart (by rw [hop]; decide))
      (fun q hq => .inl ⟨hq, hother q hq, hpool (hother q hq)⟩) fun j hj => ?_, fun hall => ?_⟩
    · rcases List.mem_append.mp (hsub.subset hj) with hj | hj
      · exact .inl ⟨hj, hqueued j hj, hpool (hqueued j hj)⟩
      · rw [List.mem_singleton.mp hj]
        exact .inr ⟨rfl, hlt, (hgiven' _).trans hgiven, hu,
          _, List.mem_append_right _ (List.mem_singleton_self _)⟩
    · rw [hsame.all hall]
      exact iff_of_true (hu.delivered (by rw [hgiven', hgiven]; exact Nat.zero_le 1)) (hvacuous hop (by decide))
  | replied d conn r handler hop hresult hhandler hdbconn hcall =>
    rw [complete_dbRead net s hop]
    rw [hop] at hstage
    obtain ⟨hlt, hgiven, hu, hasked⟩ := hstage
    have hanswer := h.answer (t := {s with
        pool := Function.update s.pool p.slot {r with lastEvent := .writing}
        used := Function.update s.used d false
        conns := Function.update s.conns d conn
        pending := s.pending ++ [⟨.write, p.slot⟩]
        log := s.log ++ [.wrote (s.client p.slot) r.buffer (s.conns d)]})
      hlt hgiven hu (hapart (by rw [hop]; decide)) rfl rfl rfl (fun y => ?_)
      (fun y _ => by simp) (hasked.mono _) rfl
      (fun q hq => ⟨hother q hq, hpool (hother q hq)⟩) (fun j hj => ⟨hj, hqueued j hj, hpool (hqueued j hj)⟩)
    · exact ⟨hanswer.1, fun hall => iff_of_true (hanswer.2.mpr hall) (hvacuous hop (by decide))⟩
    · rw [given_wrote]
      show _ = if _ then [responseText (Function.update s.pool p.slot _ p.slot).buffer] else []
      rw [Function.update_self]
  | written hop hresult =>
    rw [complete_write net s hop hresult]
    rw [hop] at hstage
    obtain ⟨hlt, hgiven, hu, hasked⟩ := hstage
    have hsame := SameBut.written net (s := s) (t := {s with
        pool := Function.update s.pool p.slot {s.pool p.slot with lastEvent := .closing}
        pending := s.pending ++ [⟨.close, p.slot⟩]}) (s.client p.slot)
      ((responseText (s.pool p.slot).buffer).take c.result.toNat) rfl rfl rfl
    refine ⟨h.replace hsame hlt (hapart (by rw [hop]; decide)) (fun q hq => ?_)
      (fun j hj => .inl ⟨hj, hqueued j hj, hpool (hqueued j hj)⟩), fun hall => ?_⟩
    · rcases List.mem_append.mp hq with hq | hq
      · exact .inl ⟨hq, hother q hq, hpool (hother q hq)⟩
      · cases List.mem_singleton.mp hq
        exact .inr ⟨rfl, hlt⟩
    · rw [hsame.all hall]
      refine (delivered_written hu hgiven hasked).trans ⟨fun hle _ _ => hle, fun hle => hle hop hresult⟩
  | closed hop hresult =>
    rw [complete_close net s hop hresult]
    have hsame : SameBut (s.client p.slot) net net s {s with pool := Function.update s.pool p.slot .zero} :=
      ⟨rfl, rfl, fun _ _ => rfl, fun _ _ => Iff.rfl, fun _ _ => rfl, fun _ _ => rfl, fun _ _ => rfl⟩
    refine ⟨h.replace hsame (hstage.lt (by rw [hop]; decide)) (hapart (by rw [hop]; decide))
      (fun q hq => .inl ⟨hq, hother q hq, hpool (hother q hq)⟩)
      (fun j hj => .inl ⟨hj, hqueued j hj, hpool (hqueued j hj)⟩), fun hall => ?_⟩
    exact iff_of_true hall (hvacuous hop (by decide))

end Completion

/-! ### to_exit -/

/-- No request has set `to_exit`. -/
def Staying (s : State P N) : Prop := ∀ i, (s.pool i).toExit = false

theorem toExit_update {s : State P N} {i : Fin P} {r : ReqRes (Fin N)} (h : Staying s) (hr : r.toExit = false)
    (j : Fin P) : (Function.update s.pool i r j).toExit = false := by
  by_cases hj : j = i
  · rw [hj, Function.update_self]
    exact hr
  · rw [Function.update_of_ne hj]
    exact h j

theorem staying_dispatch {s s' : State P N} (hs : Consistent s []) (h : Staying s) {outcomes : Nat → Outcome}
    (hd : s.queuDispatch outcomes = .ok s') : Staying s' := by
  have hconn : ∀ t : State P N, Staying t → Staying t.getDbconn.2 := by
    intro t ht
    rcases getDbconn_cases t with ⟨c, _, heq⟩ | heq
    · rw [heq]
      exact ht
    · rw [heq]
      exact ht
  have hkept : KeptByTurns fun (_ : Option (Fin N)) (t : State P N) => Staying t := by
    refine ⟨fun c t queue ht _ _ => ht, fun c t queue i response _ ht _ _ _ _ => ?_,
      fun c t queue i query o _ ht _ _ _ => hconn _ ?_⟩
    · exact toExit_update (r := {declined (t.pool i) c response with lastEvent := .writing}) ht (ht i)
    · exact toExit_update (r := {engaged (t.pool i) c query with lastEvent := .dbResponding}) ht (ht i)
  exact queuDispatch_keeps (Q := Staying) hkept (fun _ ht => ht) (fun _ _ ht => ht) hs (hconn s h) hd

theorem onRead_toExit {s t : State P N} {i : Fin P} (h : s.onRead i = .ok t) :
    (t.pool i).toExit = (controller (s.pool i)).toExit := by
  unfold State.onRead at h
  simp only [State.setSlot_self] at h
  split at h
  · cases h
    simp only [State.pushWriting, State.submit, State.note, State.setSlot_self]
  · split at h
    · cases h
    · cases h
      simp only [State.setSlot_self]

/-- What a completion leaves of `to_exit`, but for a request that is read. -/
theorem handled_toExit {s s' : State P N} {c : Completion} {p : Pending P} (hs : Handled s c p s')
    (h : Staying s) : (∀ j, j ≠ p.slot → (s'.pool j).toExit = false) ∧
      (¬ (p.op = .read ∧ 0 ≤ c.result) → (s'.pool p.slot).toExit = false) := by
  have hother : ∀ {r : ReqRes (Fin N)} {j}, j ≠ p.slot → (Function.update s.pool p.slot r j).toExit = false := by
    intro r j hj
    rw [Function.update_of_ne hj]
    exact h j
  cases hs with
  | failed hresult => exact ⟨fun j _ => h j, fun _ => h p.slot⟩
  | accepted j hop hresult hfree hne =>
    have hall : ∀ k, (Function.update (Function.update s.pool p.slot
        ({ReqRes.zero with ring := true, lastEvent := .reading, clientFd := c.result} : ReqRes (Fin N))) j
          {ReqRes.zero with ring := true} k).toExit = false := by
      intro k
      by_cases hk : k = j
      · rw [hk, Function.update_self]
        rfl
      · rw [Function.update_of_ne hk]
        exact toExit_update h rfl k
    exact ⟨fun k _ => hall k, fun _ => hall p.slot⟩
  | answered response r hop hresult hno hr hresponse =>
    exact ⟨fun j hj => hother hj, fun hn => absurd ⟨hop, hresult⟩ hn⟩
  | queued queue r hop hresult hbuffer hr hpush => exact ⟨fun j hj => hother hj, fun hn => absurd ⟨hop, hresult⟩ hn⟩
  | replied d conn r handler hop hresult hhandler hdbconn hcall =>
    have hr : r.toExit = false := by
      have hreported : ∀ res, Reported (s.pool p.slot) res r → r.toExit = false := by
        intro res hrep
        cases hrep with
        | failed => exact h p.slot
        | value => exact h p.slot
      rcases handler_cases hcall with ⟨_, _, hrep⟩ | ⟨_, _, hrep⟩
      · exact hreported _ hrep
      · exact hreported _ hrep
    have hall := toExit_update (i := p.slot) (r := {r with lastEvent := .writing}) h hr
    exact ⟨fun j _ => hall j, fun _ => hall p.slot⟩
  | written hop hresult =>
    have hall := toExit_update (i := p.slot) (r := {s.pool p.slot with lastEvent := .closing}) h (h p.slot)
    exact ⟨fun j _ => hall j, fun _ => hall p.slot⟩
  | closed hop hresult =>
    have hall := toExit_update (i := p.slot) (r := ReqRes.zero) h rfl
    exact ⟨fun j _ => hall j, fun _ => hall p.slot⟩

/-- At `ioseen` only a request for `/exit` has set `to_exit`. -/
theorem ioseen_toExit {s t : State P N} {c : Completion} {p : Pending P} (hs : Consistent s []) (h : Staying s)
    (hp : s.pending[c.index]? = some p) (ht : s.ioseen c p = .ok t) :
    (∀ j, j ≠ p.slot → (t.pool j).toExit = false) ∧ ((t.pool p.slot).toExit = true ↔ Exits s c p) := by
  obtain ⟨hslot, hcomplete⟩ : _ ∧ Consistent (s.completed c.index) [p.slot] := hs.complete hp
  unfold State.ioseen at ht
  by_cases hresult : c.result < 0
  · have hfill : (s.completed c.index).fill c p = s.completed c.index :=
      if_neg fun hread => absurd hread.2 (not_le.mpr hresult)
    rw [if_pos hresult, hfill] at ht
    cases ht
    refine ⟨fun j _ => h j, iff_of_false ?_ fun hexits => absurd hexits.2.1 (not_le.mpr hresult)⟩
    rw [show ((s.completed c.index).pool p.slot).toExit = false from h p.slot]
    decide
  · rw [if_neg hresult] at ht
    have hge : 0 ≤ c.result := not_lt.mp hresult
    obtain ⟨hhandled, _⟩ := onEvent_cases hcomplete.fill hslot hge ht
    obtain ⟨hother, hself⟩ := handled_toExit hhandled h
    refine ⟨hother, ?_⟩
    by_cases hop : p.op = .read
    · have hread : (s.completed c.index).fill c p = (s.completed c.index).afterRead p.slot c.data :=
        if_pos ⟨hop, hge⟩
      have hevent : (((s.completed c.index).afterRead p.slot c.data).pool p.slot).lastEvent = .reading := by
        rw [hop] at hslot
        obtain ⟨fd, hfd⟩ := hslot
        simp only [State.afterRead, State.note, State.setSlot_self, State.completed, hfd]
      rw [hread] at ht
      unfold State.onEvent at ht
      simp only [hevent] at ht
      have h0 : (((s.completed c.index).afterRead p.slot c.data).pool p.slot).toExit = false := by
        simp only [State.afterRead, State.note, State.setSlot_self]
        exact h p.slot
      have huri : ∀ x : Except ParserError RequestData,
          (∃ d, x = .ok d ∧ d.uri = .exit) ↔ x.map RequestData.uri = .ok .exit := by
        intro x
        cases x <;> simp [Except.map]
      rw [onRead_toExit ht, controller_toExit_uri h0, State.afterRead_buffer, huri]
      exact ⟨fun hd => ⟨hop, hge, hd⟩, fun hexits => hexits.2.2⟩
    · rw [hself fun hread => hop hread.1]
      exact iff_of_false (by decide) fun hexits => hop hexits.1

end Rinha.Server
