import Rinha.Server.Draining
import Rinha.Server.Errands
import Rinha.Server.Requests
import Rinha.Server.WireProofs

/-! What is said on one connection.

A connection is numbered where it is accepted. What is recorded under its number, in
whatever order the connections take their turns and whatever fails, is the beginning
of one exchange: a request, at most one command that is the request's own, and one
answer, which is the function's for the reply where there is a command, with nothing
behind it (`exchanges`). A connection whose exchange has not come
to its end keeps its slot, so a server at rest has ended every one (`all_answered`). -/
namespace Rinha.Server
open Library Request Client

variable {P N : Nat}

/-! ### Exchanges -/

/-- Whose event it is. -/
def Obs.of : Obs → Nat
  | received client _ => client
  | sent client _ _ => client
  | wrote client _ _ => client

/-- What is recorded of a connection, in its order. -/
def talk (log : List Obs) (client : Nat) : List Obs := log.filter fun o => o.of = client

/-- The request was received; its command, where it has one, may have been sent. -/
inductive Opened (client : Nat) (request : List UInt8) : List Obs → Prop where
  | received : Opened client request [.received client request]
  | sent (tag : Nat) (query : Query) (hquery : queryOf request = some query) :
      Opened client request [.received client request, .sent client tag query]

/-- The request was answered: without the database where it has no command, and else
with what the function for the reply makes of the connection that it reads from. -/
inductive Ended (client : Nat) : List Obs → Prop where
  | refused (request buffer : List UInt8) (hquery : queryOf request = none) :
      Ended client [.received client request, .wrote client buffer none]
  | replied (request buffer : List UInt8) (opened : List Obs) (query : Query) (polls : List Poll) (source : PGconn)
      (hopened : Opened client request opened) (hquery : queryOf request = some query)
      (hreply : ((handlerFor query).call polls (slotWith request) source).map (fun p => responseText p.1.buffer) =
        .ok (responseText buffer)) :
      Ended client (opened ++ [.wrote client buffer source])

/-- One exchange, as far as it has come. -/
inductive Exchange (client : Nat) : List Obs → Prop where
  | silent : Exchange client []
  | opened (request : List UInt8) (talk : List Obs) (h : Opened client request talk) : Exchange client talk
  | ended (talk : List Obs) (h : Ended client talk) : Exchange client talk

theorem talk_append (log extra : List Obs) (client : Nat) :
    talk (log ++ extra) client = talk log client ++ talk extra client := List.filter_append ..

theorem talk_own {extra : List Obs} {client : Nat} (h : ∀ o ∈ extra, o.of = client) : talk extra client = extra :=
  List.filter_eq_self.mpr fun o ho => decide_eq_true (h o ho)

theorem talk_other {extra : List Obs} {client client' : Nat} (h : ∀ o ∈ extra, o.of = client)
    (hne : client' ≠ client) : talk extra client' = [] := by
  apply List.filter_eq_nil_iff.mpr
  intro o ho
  simpa using fun heq => hne (heq.symm.trans (h o ho))

theorem wants_of_queryOf {buffer : List UInt8} (h : queryOf buffer ≠ none) : WantsDatabase buffer := by
  unfold queryOf at h
  split at h
  · exact absurd rfl h
  · rename_i d hd
    split at h
    · exact absurd rfl h
    · rename_i hid
      split at h
      · rename_i hget
        exact ⟨d, hd, not_le.mp hid, .inl hget⟩
      · split at h
        · rename_i hpost
          exact ⟨d, hd, not_le.mp hid, .inr hpost⟩
        · exact absurd rfl h

/-- A command that was sent is the request's, and the only one. -/
theorem Opened.sent_eq {client : Nat} {request : List UInt8} {l : List Obs} (h : Opened client request l) :
    .received client request ∈ l ∧ ∀ tag query, .sent client tag query ∈ l →
      queryOf request = some query ∧ l = [.received client request, .sent client tag query] := by
  cases h with
  | received => exact ⟨List.mem_singleton_self _, fun tag query hmem => by cases List.mem_singleton.mp hmem⟩
  | sent tag query hquery =>
    refine ⟨List.mem_cons_self .., fun tag' query' hmem => ?_⟩
    rcases List.mem_cons.mp hmem with heq | hmem
    · cases heq
    · cases List.mem_singleton.mp hmem
      exact ⟨hquery, rfl⟩

theorem Exchange.opened_of_sent {client tag : Nat} {query : Query} {l : List Obs} (h : Exchange client l)
    (hsent : .sent client tag query ∈ l) : ∃ request opened, Opened client request opened ∧ opened.Sublist l ∧
      ∀ tag query, .sent client tag query ∈ l → .sent client tag query ∈ opened := by
  cases h with
  | silent => cases hsent
  | opened request l h => exact ⟨request, l, h, List.Sublist.refl l, fun _ _ => id⟩
  | ended l h =>
    cases h with
    | refused request buffer hquery => simp at hsent
    | replied request buffer opened query polls source hopened hquery hreply =>
      refine ⟨request, opened, hopened, List.sublist_append_left _ _, fun tag query hmem => ?_⟩
      exact (List.mem_append.mp hmem).resolve_right fun hmem => by cases List.mem_singleton.mp hmem

/-- An exchange has one command at most, which is its request's. -/
theorem Exchange.sent_request {client tag : Nat} {query : Query} {l : List Obs} (h : Exchange client l)
    (hsent : .sent client tag query ∈ l) : ∃ request, .received client request ∈ l ∧ queryOf request = some query := by
  obtain ⟨request, opened, hopened, hsub, hmem⟩ := h.opened_of_sent hsent
  obtain ⟨hreceived, hquery⟩ := hopened.sent_eq
  exact ⟨request, hsub.subset hreceived, (hquery tag query (hmem tag query hsent)).1⟩

theorem Exchange.sent_unique {client tag tag' : Nat} {query query' : Query} {l : List Obs} (h : Exchange client l)
    (hsent : .sent client tag query ∈ l) (hsent' : .sent client tag' query' ∈ l) : tag = tag' := by
  obtain ⟨request, opened, hopened, _, hmem⟩ := h.opened_of_sent hsent
  have heq := (hopened.sent_eq.2 tag query (hmem tag query hsent)).2
  have hmem' := hmem tag' query' hsent'
  rw [heq] at hmem'
  simp at hmem'
  exact hmem'.1.symm

theorem Opened.not_wrote {client : Nat} {request buffer : List UInt8} {source : PGconn} {l : List Obs}
    (h : Opened client request l) : .wrote client buffer source ∉ l := by
  cases h <;> simp

/-- An exchange with a command and an answer has come to its end, and is these two and
the request that the command is of. -/
theorem Exchange.whole {client tag : Nat} {query : Query} {buffer : List UInt8} {source : PGconn} {l : List Obs}
    (h : Exchange client l) (hsent : .sent client tag query ∈ l) (hwrote : .wrote client buffer source ∈ l) :
    ∃ request, queryOf request = some query ∧
      l = [.received client request, .sent client tag query, .wrote client buffer source] := by
  cases h with
  | silent => cases hsent
  | opened request l h => exact absurd hwrote h.not_wrote
  | ended l h =>
    cases h with
    | refused request buffer' hquery => simp at hsent
    | replied request buffer' opened query' polls source' hopened hquery' hreply =>
      have hmem : .sent client tag query ∈ opened :=
        (List.mem_append.mp hsent).resolve_right fun hmem => by cases List.mem_singleton.mp hmem
      obtain ⟨hquery, heq⟩ := hopened.sent_eq.2 tag query hmem
      have hlast := List.mem_singleton.mp ((List.mem_append.mp hwrote).resolve_left hopened.not_wrote)
      cases hlast
      exact ⟨request, hquery, by rw [heq]; rfl⟩

theorem mem_talk {log : List Obs} {o : Obs} : o ∈ talk log o.of ↔ o ∈ log := by
  simp [talk]

/-! ### Where a slot is with its connection -/

/-- What was said on a slot's connection while an operation on the slot is pending. -/
def Said (s : State P N) : Op → Fin P → Prop
  | .accept, _ => True
  | .read, i => talk s.log (s.client i) = []
  | .dbRead, i => Opened (s.client i) (s.pool i).buffer (talk s.log (s.client i)) ∧
      ∃ query, queryOf (s.pool i).buffer = some query ∧ (s.pool i).dbResponseHandler = some (handlerFor query)
  | .write, i => Ended (s.client i) (talk s.log (s.client i))
  | .close, i => Ended (s.client i) (talk s.log (s.client i))

/-- The same while the slot is queued. -/
def SaidQueued (s : State P N) (i : Fin P) : Prop :=
  talk s.log (s.client i) = [.received (s.client i) (s.pool i).buffer]

/-- The slot is in use, and not for a connection that is still to be accepted. -/
def Taken (s : State P N) (i : Fin P) : Prop := (s.pool i).ring = true ∧ (⟨.accept, i⟩ : Pending P) ∉ s.pending

structure Talks (s : State P N) : Prop where
  pending : ∀ p ∈ s.pending, Said s p.op p.slot
  queued : ∀ i ∈ s.queue.contents, SaidQueued s i
  apart : ∀ i j, Busy s i → Busy s j → s.client i = s.client j → i = j
  below : ∀ i, Busy s i → s.client i < s.accepted
  beyond : ∀ client, s.accepted ≤ client → talk s.log client = []
  exchange : ∀ client, Exchange client (talk s.log client)
  held : ∀ client, client < s.accepted → (∃ i, Taken s i ∧ s.client i = client) ∨ Ended client (talk s.log client)

/-- Slot `i` goes to another place, or to none; no other slot does, though one may be
forgotten, and what is recorded is of its connection. -/
structure Moves (s t : State P N) (i : Fin P) : Prop where
  client : t.client = s.client
  accepted : t.accepted = s.accepted
  pool : ∀ j, j ≠ i → t.pool j = s.pool j
  pending : ∀ p ∈ t.pending, (p ∈ s.pending ∧ p.slot ≠ i) ∨ p.slot = i
  queued : ∀ j ∈ t.queue.contents, (j ∈ s.queue.contents ∧ j ≠ i) ∨ j = i
  log : ∃ extra, t.log = s.log ++ extra ∧ ∀ o ∈ extra, o.of = s.client i

theorem Moves.talk {s t : State P N} {i : Fin P} (h : Moves s t i) {client : Nat} (hne : client ≠ s.client i) :
    talk t.log client = talk s.log client := by
  obtain ⟨extra, hlog, hextra⟩ := h.log
  rw [hlog, talk_append, talk_other hextra hne, List.append_nil]

theorem Moves.busy {s t : State P N} {i j : Fin P} (h : Moves s t i) (hj : Busy t j) (hne : j ≠ i) : Busy s j := by
  rcases hj with ⟨p, hp, hop, rfl⟩ | hj
  · exact .inl ⟨p, ((h.pending p hp).resolve_right hne).1, hop, rfl⟩
  · exact .inr ((h.queued j hj).resolve_right hne).1

theorem Moves.taken {s t : State P N} {i j : Fin P} (h : Moves s t i) (hj : Taken s j) (hne : j ≠ i) : Taken t j := by
  refine ⟨?_, fun hmem => hj.2 ((h.pending _ hmem).resolve_right hne).1⟩
  rw [h.pool j hne]
  exact hj.1

/-- A slot's own connection is all that its move is about. -/
theorem Talks.move {s t : State P N} {i : Fin P} (h : Talks s) (hm : Moves s t i) (hlt : s.client i < s.accepted)
    (hapart : ∀ j, Busy s j → j ≠ i → s.client j ≠ s.client i)
    (hpending : ∀ p ∈ t.pending, p.slot = i → Said t p.op i) (hqueued : i ∈ t.queue.contents → SaidQueued t i)
    (hexchange : Exchange (s.client i) (talk t.log (s.client i)))
    (hheld : Taken t i ∨ Ended (s.client i) (talk t.log (s.client i))) : Talks t := by
  have hsame : ∀ j, Busy s j → j ≠ i → talk t.log (s.client j) = talk s.log (s.client j) :=
    fun j hj hne => hm.talk (hapart j hj hne)
  constructor
  · intro p hp
    rcases hm.pending p hp with ⟨hold, hne⟩ | heq
    · have hsaid := h.pending p hold
      by_cases hop : p.op = .accept
      · rw [hop]
        trivial
      · have htalk := hsame p.slot (.inl ⟨p, hold, hop, rfl⟩) hne
        have hpool := hm.pool p.slot hne
        have hclient : t.client p.slot = s.client p.slot := congrFun hm.client p.slot
        cases hop' : p.op with
        | accept => exact absurd hop' hop
        | _ =>
          rw [hop'] at hsaid
          simp only [Said, htalk, hpool, hclient] at hsaid ⊢
          exact hsaid
    · rw [heq]
      exact hpending p hp heq
  · intro j hj
    rcases hm.queued j hj with ⟨hold, hne⟩ | rfl
    · have hclient : t.client j = s.client j := congrFun hm.client j
      unfold SaidQueued
      rw [hclient, hsame j (.inr hold) hne, hm.pool j hne]
      exact h.queued j hold
    · exact hqueued hj
  · intro a b ha hb heq
    rw [hm.client] at heq
    by_cases hai : a = i
    · by_cases hbi : b = i
      · rw [hai, hbi]
      · exact absurd (heq.symm.trans (congrArg s.client hai)) (hapart b (hm.busy hb hbi) hbi)
    · by_cases hbi : b = i
      · exact absurd (heq.trans (congrArg s.client hbi)) (hapart a (hm.busy ha hai) hai)
      · exact h.apart a b (hm.busy ha hai) (hm.busy hb hbi) heq
  · intro j hj
    rw [hm.client, hm.accepted]
    by_cases hji : j = i
    · rw [hji]
      exact hlt
    · exact h.below j (hm.busy hj hji)
  · intro client hclient
    rw [hm.accepted] at hclient
    rw [hm.talk (lt_of_lt_of_le hlt hclient).ne']
    exact h.beyond client hclient
  · intro client
    by_cases hclient : client = s.client i
    · rw [hclient]
      exact hexchange
    · rw [hm.talk hclient]
      exact h.exchange client
  · intro client hclient
    rw [hm.accepted] at hclient
    rw [hm.client]
    by_cases hown : client = s.client i
    · rw [hown]
      exact hheld.imp_left fun htaken => ⟨i, htaken, rfl⟩
    · rw [hm.talk hown]
      rcases h.held client hclient with ⟨j, htaken, rfl⟩ | hended
      · have hji : j ≠ i := fun heq => hown (congrArg s.client heq)
        exact .inl ⟨j, hm.taken htaken hji, rfl⟩
      · exact .inr hended

/-- Fewer places, and the same slots. -/
theorem Talks.sub {s t : State P N} (h : Talks s) (hclient : t.client = s.client) (haccepted : t.accepted = s.accepted)
    (hlog : t.log = s.log) (hpool : t.pool = s.pool) (hpending : ∀ p ∈ t.pending, p ∈ s.pending)
    (hqueued : ∀ j ∈ t.queue.contents, j ∈ s.queue.contents) : Talks t := by
  have hbusy : ∀ {j}, Busy t j → Busy s j := by
    intro j hj
    rcases hj with ⟨p, hp, hop, rfl⟩ | hj
    · exact .inl ⟨p, hpending p hp, hop, rfl⟩
    · exact .inr (hqueued j hj)
  constructor
  · intro p hp
    have hsaid := h.pending p (hpending p hp)
    cases hop : p.op with
    | accept => trivial
    | _ =>
      rw [hop] at hsaid
      simp only [Said, hlog, hpool, hclient] at hsaid ⊢
      exact hsaid
  · intro j hj
    unfold SaidQueued
    rw [hlog, hpool, hclient]
    exact h.queued j (hqueued j hj)
  · intro a b ha hb heq
    rw [hclient] at heq
    exact h.apart a b (hbusy ha) (hbusy hb) heq
  · intro j hj
    rw [hclient, haccepted]
    exact h.below j (hbusy hj)
  · rw [hlog, haccepted]
    exact h.beyond
  · rw [hlog]
    exact h.exchange
  · intro client hlt
    rw [haccepted] at hlt
    rw [hlog, hclient]
    refine (h.held client hlt).imp_left fun hheld => ?_
    obtain ⟨i, ⟨hring, hmem⟩, heq⟩ := hheld
    refine ⟨i, ⟨?_, fun hmem' => hmem (hpending _ hmem')⟩, heq⟩
    rw [hpool]
    exact hring

theorem Talks.getDbconn {s : State P N} (h : Talks s) : Talks s.getDbconn.2 := by
  unfold State.getDbconn
  split
  · exact h.sub rfl rfl rfl rfl (fun _ hp => hp) fun _ hj => hj
  · exact h

/-! ### The dispatch -/

/-- The first of the queued slots goes on to an operation. -/
theorem moves_turn {s t : State P N} {queue : Queue (Fin P)} {i : Fin P} {op : Op} {extra : List Obs}
    (hs : Consistent s []) (hcons : s.queue.contents = i :: queue.contents) (hclient : t.client = s.client)
    (haccepted : t.accepted = s.accepted) (hpool : ∀ j, j ≠ i → t.pool j = s.pool j)
    (hpending : t.pending = s.pending ++ [⟨op, i⟩]) (hqueue : t.queue = queue) (hlog : t.log = s.log ++ extra)
    (hextra : ∀ o ∈ extra, o.of = s.client i) : Moves s t i where
  client := hclient
  accepted := haccepted
  pool := hpool
  pending := by
    intro p hp
    rw [hpending] at hp
    rcases List.mem_append.mp hp with hp | hp
    · exact .inl ⟨hp, (head_elsewhere hs hcons).2 p hp⟩
    · rw [List.mem_singleton.mp hp]
      exact .inr rfl
  queued := by
    intro j hj
    rw [hqueue] at hj
    exact .inl ⟨by rw [hcons]; exact List.mem_cons_of_mem i hj, (head_elsewhere hs hcons).1 j hj⟩
  log := ⟨extra, hlog, hextra⟩

/-- What the first of the queued slots is with its connection. -/
theorem Talks.head {s : State P N} {i : Fin P} {rest : List (Fin P)} (h : Talks s)
    (hcons : s.queue.contents = i :: rest) :
    SaidQueued s i ∧ s.client i < s.accepted ∧ ∀ j, Busy s j → j ≠ i → s.client j ≠ s.client i := by
  have hmem : i ∈ s.queue.contents := by
    rw [hcons]
    exact List.mem_cons_self ..
  exact ⟨h.queued i hmem, h.below i (.inr hmem), fun j hj hne heq => hne (h.apart j i hj (.inr hmem) heq)⟩

/-- The pending operation that the turn has submitted is the slot's only one. -/
theorem submitted_said {s t : State P N} {queue : Queue (Fin P)} {i : Fin P} (op : Op) (hs : Consistent s [])
    (hcons : s.queue.contents = i :: queue.contents) (hpending : t.pending = s.pending ++ [⟨op, i⟩])
    (hsaid : Said t op i) : ∀ p ∈ t.pending, p.slot = i → Said t p.op i := by
  intro p hp hslot
  rw [hpending] at hp
  rcases List.mem_append.mp hp with hp | hp
  · exact absurd hslot ((head_elsewhere hs hcons).2 p hp)
  · rw [List.mem_singleton.mp hp]
    exact hsaid

theorem Talks.refuseTurn {s : State P N} {queue : Queue (Fin P)} {i : Fin P} {c : Fin N} {response : List UInt8}
    (hs : Consistent s []) (h : Talks s) (hcons : s.queue.contents = i :: queue.contents)
    (hquery : queryOf (s.pool i).buffer = none) : Talks (s.refuseTurn queue i c response) := by
  obtain ⟨hsaid, hlt, hapart⟩ := h.head hcons
  have hextra : ∀ o ∈ [Obs.wrote (s.client i) (declined (s.pool i) c response).buffer none], o.of = s.client i := by
    simp [Obs.of]
  have hended : Ended (s.client i) (talk (s.refuseTurn queue i c response).log (s.client i)) := by
    rw [show (s.refuseTurn queue i c response).log = s.log ++ _ from rfl, talk_append, hsaid, talk_own hextra]
    exact .refused _ _ hquery
  have hm : Moves s (s.refuseTurn queue i c response) i :=
    moves_turn hs hcons rfl rfl (fun j hj => s.refuseTurn_ne queue c response hj) rfl rfl rfl hextra
  refine h.move hm hlt hapart (submitted_said .write hs hcons rfl hended) (fun hi => ?_) (.ended _ hended)
    (.inr hended)
  exact absurd rfl ((head_elsewhere hs hcons).1 i hi)

theorem Talks.sendTurn {s : State P N} {queue : Queue (Fin P)} {i : Fin P} {c : Fin N} {query : Query} {o : Outcome}
    (hs : Consistent s []) (h : Talks s) (hcons : s.queue.contents = i :: queue.contents)
    (hring : (s.pool i).ring = true) (hquery : queryOf (s.pool i).buffer = some query) :
    Talks (s.sendTurn queue i c query o) := by
  obtain ⟨hsaid, hlt, hapart⟩ := h.head hcons
  have hself := s.sendTurn_self queue i c query o
  obtain ⟨extra, hlog, hextra, hopened⟩ : ∃ extra, (s.sendTurn queue i c query o).log = s.log ++ extra ∧
      (∀ o ∈ extra, o.of = s.client i) ∧
        Opened (s.client i) (s.pool i).buffer (.received (s.client i) (s.pool i).buffer :: extra) := by
    by_cases hsends : s.Sends c o
    · exact ⟨_, if_pos hsends, by simp [Obs.of], .sent _ _ hquery⟩
    · exact ⟨[], (if_neg hsends).trans (List.append_nil _).symm, by simp, .received⟩
  have htalk : Opened (s.client i) (s.pool i).buffer (talk (s.sendTurn queue i c query o).log (s.client i)) := by
    rw [hlog, talk_append, hsaid, talk_own hextra]
    exact hopened
  have hm : Moves s (s.sendTurn queue i c query o) i :=
    moves_turn hs hcons rfl rfl (fun j hj => s.sendTurn_ne queue c query o hj) rfl rfl hlog hextra
  have hbuffer : ((s.sendTurn queue i c query o).pool i).buffer = (s.pool i).buffer := by
    rw [hself]
    rfl
  have hhandler : ((s.sendTurn queue i c query o).pool i).dbResponseHandler = some (handlerFor query) := by
    rw [hself]
    rfl
  have hsaid' : Said (s.sendTurn queue i c query o) .dbRead i := by
    simp only [Said, hbuffer, hhandler]
    exact ⟨htalk, query, hquery, rfl⟩
  refine h.move hm hlt hapart (submitted_said .dbRead hs hcons rfl hsaid') (fun hi => ?_) (.opened _ _ htalk)
    (.inl ⟨?_, fun hmem => ?_⟩)
  · exact absurd rfl ((head_elsewhere hs hcons).1 i hi)
  · rw [hself]
    exact hring
  · rcases List.mem_append.mp hmem with hmem | hmem
    · exact (head_elsewhere hs hcons).2 _ hmem rfl
    · cases List.mem_singleton.mp hmem

theorem talks_dispatch {s s' : State P N} (hs : Consistent s []) (h : Talks s) {outcomes : Nat → Outcome}
    (hd : s.queuDispatch outcomes = .ok s') : Talks s' := by
  have hkept : KeptByTurns fun (_ : Option (Fin N)) (t : State P N) => Talks t := by
    constructor
    · intro c t queue ht _ hnil
      exact ht.sub rfl rfl rfl rfl (fun _ hp => hp) fun j hj => by rw [hnil] at hj; cases hj
    · intro c t queue i response htcons ht hcons _ hquery _
      exact ht.refuseTurn htcons hcons hquery
    · intro c t queue i query o htcons ht hcons hq hquery
      exact (ht.sendTurn htcons hcons hq.ring hquery).getDbconn
  exact queuDispatch_keeps (Q := Talks) hkept (fun _ ht => ht)
    (fun _ _ ht => ht.sub rfl rfl rfl rfl (fun _ hp => hp) fun _ hj => hj) hs h.getDbconn hd

/-! ### A completion -/

/-- A completed operation's slot goes on to the next one, or to none. -/
theorem moves_handled {s t : State P N} {i : Fin P} {extra : List Obs} {more : List (Pending P)}
    (hs : Consistent s [i]) (hclient : t.client = s.client) (haccepted : t.accepted = s.accepted)
    (hpool : ∀ j, j ≠ i → t.pool j = s.pool j) (hpending : t.pending = s.pending ++ more)
    (hmore : ∀ p ∈ more, p.slot = i) (hqueued : ∀ j ∈ t.queue.contents, j ∈ s.queue.contents ∨ j = i)
    (hlog : t.log = s.log ++ extra) (hextra : ∀ o ∈ extra, o.of = s.client i) : Moves s t i where
  client := hclient
  accepted := haccepted
  pool := hpool
  pending := by
    intro p hp
    rw [hpending] at hp
    exact (List.mem_append.mp hp).imp (fun hp => ⟨hp, hs.not_pending hp⟩) (hmore p)
  queued := fun j hj => (hqueued j hj).imp_left fun hj => ⟨hj, hs.not_queued hj⟩
  log := ⟨extra, hlog, hextra⟩

theorem handled_said {s t : State P N} {i : Fin P} {more : List (Pending P)} (hs : Consistent s [i])
    (hpending : t.pending = s.pending ++ more) (hmore : ∀ p ∈ more, Said t p.op i) :
    ∀ p ∈ t.pending, p.slot = i → Said t p.op i := by
  intro p hp hslot
  rw [hpending] at hp
  rcases List.mem_append.mp hp with hp | hp
  · exact absurd hslot (hs.not_pending hp)
  · exact hmore p hp

/-- A connection is accepted: it has a number of its own, and nothing was said on it. -/
theorem Talks.accept {s : State P N} {i j : Fin P} {result : Int} (hs : Consistent s [i]) (h : Talks s)
    (hheld : ∀ client, client < s.accepted →
      (∃ k, k ≠ i ∧ Taken s k ∧ s.client k = client) ∨ Ended client (talk s.log client))
    (hfree : (s.pool j).ring = false) (hne : j ≠ i) : Talks {s with
      pool := Function.update (Function.update s.pool i
        {ReqRes.zero with ring := true, lastEvent := .reading, clientFd := result}) j {ReqRes.zero with ring := true}
      pending := s.pending ++ [⟨.read, i⟩] ++ [⟨.accept, j⟩]
      client := Function.update s.client i s.accepted
      accepted := s.accepted + 1} := by
  have hunused : ∀ k, Busy s k → k ≠ i ∧ k ≠ j := by
    intro k hk
    rcases hk with ⟨p, hp, _, rfl⟩ | hk
    · refine ⟨hs.not_pending hp, fun heq => ?_⟩
      rw [← heq, (hs.pending p hp).ring] at hfree
      cases hfree
    · refine ⟨hs.not_queued hk, fun heq => ?_⟩
      rw [← heq, (hs.queued k hk).ring] at hfree
      cases hfree
  have hself : talk s.log s.accepted = [] := h.beyond s.accepted le_rfl
  have hpending : ∀ p ∈ s.pending ++ [⟨.read, i⟩] ++ [⟨.accept, j⟩],
      p ∈ s.pending ∨ p = ⟨.read, i⟩ ∨ p = ⟨.accept, j⟩ := by
    intro p hp
    simpa only [List.mem_append, List.mem_singleton, or_assoc] using hp
  generalize ht : ({s with
      pool := Function.update (Function.update s.pool i
        {ReqRes.zero with ring := true, lastEvent := .reading, clientFd := result}) j {ReqRes.zero with ring := true}
      pending := s.pending ++ [⟨.read, i⟩] ++ [⟨.accept, j⟩]
      client := Function.update s.client i s.accepted
      accepted := s.accepted + 1} : State P N) = t
  have htpending : t.pending = s.pending ++ [⟨.read, i⟩] ++ [⟨.accept, j⟩] := by rw [← ht]
  have htqueue : t.queue = s.queue := by rw [← ht]
  have htlog : t.log = s.log := by rw [← ht]
  have htaccepted : t.accepted = s.accepted + 1 := by rw [← ht]
  have hclient : t.client i = s.accepted := by
    rw [← ht]
    exact Function.update_self ..
  have hclient' : ∀ k, k ≠ i → t.client k = s.client k := by
    intro k hk
    rw [← ht]
    exact Function.update_of_ne hk ..
  have hpool' : ∀ k, k ≠ i → k ≠ j → t.pool k = s.pool k := by
    intro k hi hj
    rw [← ht]
    exact (Function.update_of_ne hj ..).trans (Function.update_of_ne hi ..)
  have hring : (t.pool i).ring = true := by
    rw [← ht]
    dsimp only
    rw [Function.update_of_ne (Ne.symm hne), Function.update_self]
  have hbusy : ∀ k, Busy t k → Busy s k ∨ k = i := by
    intro k hk
    rcases hk with ⟨p, hp, hop, rfl⟩ | hk
    · rw [htpending] at hp
      rcases hpending p hp with hp | rfl | rfl
      · exact .inl (.inl ⟨p, hp, hop, rfl⟩)
      · exact .inr rfl
      · exact absurd rfl hop
    · rw [htqueue] at hk
      exact .inl (.inr hk)
  constructor
  · intro p hp
    rw [htpending] at hp
    rcases hpending p hp with hp | rfl | rfl
    · have hsaid := h.pending p hp
      by_cases hop : p.op = .accept
      · rw [hop]
        trivial
      · obtain ⟨hi, hj⟩ := hunused p.slot (.inl ⟨p, hp, hop, rfl⟩)
        cases hop' : p.op with
        | accept => exact absurd hop' hop
        | _ =>
          rw [hop'] at hsaid
          simp only [Said, htlog, hclient' p.slot hi, hpool' p.slot hi hj] at hsaid ⊢
          exact hsaid
    · simp only [Said, hclient, htlog]
      exact hself
    · trivial
  · intro k hk
    rw [htqueue] at hk
    obtain ⟨hi, hj⟩ := hunused k (.inr hk)
    unfold SaidQueued
    rw [htlog, hclient' k hi, hpool' k hi hj]
    exact h.queued k hk
  · intro a b ha hb heq
    rcases hbusy a ha with ha | rfl
    · have hai := (hunused a ha).1
      have halt := h.below a ha
      rcases hbusy b hb with hb | rfl
      · rw [hclient' a hai, hclient' b (hunused b hb).1] at heq
        exact h.apart a b ha hb heq
      · rw [hclient, hclient' a hai] at heq
        omega
    · rcases hbusy b hb with hb | rfl
      · have hblt := h.below b hb
        rw [hclient, hclient' b (hunused b hb).1] at heq
        omega
      · rfl
  · intro k hk
    rw [htaccepted]
    rcases hbusy k hk with hk | rfl
    · rw [hclient' k (hunused k hk).1]
      exact Nat.lt_succ_of_lt (h.below k hk)
    · rw [hclient]
      exact Nat.lt_succ_self _
  · intro client hle
    rw [htaccepted] at hle
    rw [htlog]
    exact h.beyond client (by omega)
  · rw [htlog]
    exact h.exchange
  · intro client hlt
    rw [htaccepted] at hlt
    rw [htlog]
    rcases Nat.lt_succ_iff_lt_or_eq.mp hlt with hlt | rfl
    · refine (hheld client hlt).imp_left fun hold => ?_
      obtain ⟨k, hki, ⟨hkring, hknot⟩, heq⟩ := hold
      have hkj : k ≠ j := by
        rintro rfl
        rw [hfree] at hkring
        cases hkring
      refine ⟨k, ⟨?_, fun hmem => ?_⟩, (hclient' k hki).trans heq⟩
      · rw [hpool' k hki hkj]
        exact hkring
      · rw [htpending] at hmem
        rcases hpending _ hmem with hmem | heq | heq
        · exact hknot hmem
        · cases heq
        · exact hkj (congrArg Pending.slot heq)
    · refine .inl ⟨i, ⟨hring, fun hmem => ?_⟩, hclient⟩
      rw [htpending] at hmem
      rcases hpending _ hmem with hmem | heq | heq
      · exact hs.not_pending hmem rfl
      · cases heq
      · exact hne (congrArg Pending.slot heq).symm

/-- What `handle` is given of the slot whose operation has completed. -/
structure TalksOf (s : State P N) (p : Pending P) : Prop where
  said : Said s p.op p.slot
  below : p.op ≠ .accept → s.client p.slot < s.accepted
  apart : p.op ≠ .accept → ∀ j, Busy s j → j ≠ p.slot → s.client j ≠ s.client p.slot
  held : p.op = .accept → ∀ client, client < s.accepted →
    (∃ k, k ≠ p.slot ∧ Taken s k ∧ s.client k = client) ∨ Ended client (talk s.log client)

theorem Talks.completed {s : State P N} (h : Talks s) {k : Nat} {p : Pending P} (hp : s.pending[k]? = some p) :
    Talks (s.completed k) ∧ TalksOf (s.completed k) p := by
  have hmem := List.mem_of_getElem? hp
  have hsub : ∀ q ∈ (s.completed k).pending, q ∈ s.pending := fun q hq => List.mem_of_mem_eraseIdx hq
  have hbusy : ∀ {j}, Busy (s.completed k) j → Busy s j := by
    intro j hj
    exact hj.imp_left fun hj => hj.imp fun q hq => ⟨hsub q hq.1, hq.2⟩
  refine ⟨h.sub rfl rfl rfl rfl hsub fun _ hj => hj, ?_, fun hop => ?_, fun hop j hj hne heq => ?_,
    fun hop client hlt => ?_⟩
  · have hsaid := h.pending p hmem
    cases hop : p.op with
    | _ =>
      rw [hop] at hsaid
      exact hsaid
  · exact h.below p.slot (.inl ⟨p, hmem, hop, rfl⟩)
  · exact hne (h.apart j p.slot (hbusy hj) (.inl ⟨p, hmem, hop, rfl⟩) heq)
  · refine (h.held client hlt).imp_left fun hheld => ?_
    obtain ⟨j, ⟨hring, hnot⟩, heq⟩ := hheld
    refine ⟨j, fun hj => hnot ?_, ⟨hring, fun hmem' => hnot (hsub _ hmem')⟩, heq⟩
    rw [hj, ← hop]
    exact hmem

/-- The exchange on the slot's connection has come to its end. -/
theorem Talks.ends {s t : State P N} {p : Pending P} (extra : List Obs) (more : List (Pending P))
    (hs : Consistent s [p.slot]) (h : Talks s) (hp : TalksOf s p) (hop : p.op ≠ .accept) (hclient : t.client = s.client)
    (haccepted : t.accepted = s.accepted) (hpool : ∀ j, j ≠ p.slot → t.pool j = s.pool j) (hqueue : t.queue = s.queue)
    (hpending : t.pending = s.pending ++ more) (hmore : ∀ q ∈ more, q.slot = p.slot ∧ (q.op = .write ∨ q.op = .close))
    (hlog : t.log = s.log ++ extra) (hextra : ∀ o ∈ extra, o.of = s.client p.slot)
    (hended : Ended (s.client p.slot) (talk s.log (s.client p.slot) ++ extra)) : Talks t := by
  have htalk : Ended (s.client p.slot) (talk t.log (s.client p.slot)) := by
    rw [hlog, talk_append, talk_own hextra]
    exact hended
  have hm : Moves s t p.slot := moves_handled hs hclient haccepted hpool hpending (fun q hq => (hmore q hq).1)
    (fun j hj => .inl (by rw [← hqueue]; exact hj)) hlog hextra
  refine h.move hm (hp.below hop) (hp.apart hop) (handled_said hs hpending fun q hq => ?_) (fun hi => ?_)
    (.ended _ htalk) (.inr htalk)
  · rw [← hclient] at htalk
    rcases (hmore q hq).2 with heq | heq
    · rw [heq]
      exact htalk
    · rw [heq]
      exact htalk
  · rw [hqueue] at hi
    exact absurd rfl (hs.not_queued hi)

/-- A request was read and queued. -/
theorem Talks.queue {s t : State P N} {p : Pending P} (request : List UInt8) (hs : Consistent s [p.slot]) (h : Talks s)
    (hp : TalksOf s p) (hop : p.op = .read) (hclient : t.client = s.client) (haccepted : t.accepted = s.accepted)
    (hpool : ∀ j, j ≠ p.slot → t.pool j = s.pool j) (hbuffer : (t.pool p.slot).buffer = request)
    (hring : (t.pool p.slot).ring = true) (hpending : t.pending = s.pending)
    (hqueue : ∀ j ∈ t.queue.contents, j ∈ s.queue.contents ∨ j = p.slot)
    (hlog : t.log = s.log ++ [.received (s.client p.slot) request]) : Talks t := by
  have hne : p.op ≠ .accept := by rw [hop]; decide
  have hsaid := hp.said
  rw [hop] at hsaid
  have hextra : ∀ o ∈ [Obs.received (s.client p.slot) request], o.of = s.client p.slot := by
    simp [Obs.of]
  have htalk : talk t.log (s.client p.slot) = [.received (s.client p.slot) request] := by
    rw [hlog, talk_append, talk_own hextra, show talk s.log (s.client p.slot) = [] from hsaid, List.nil_append]
  have hpending' : t.pending = s.pending ++ [] := hpending.trans (List.append_nil _).symm
  have hm : Moves s t p.slot :=
    moves_handled hs hclient haccepted hpool hpending' (fun _ hq => absurd hq List.not_mem_nil) hqueue hlog hextra
  refine h.move hm (hp.below hne) (hp.apart hne)
    (handled_said hs hpending' fun _ hq => absurd hq List.not_mem_nil) (fun _ => ?_) ?_ (.inl ⟨hring, fun hmem => ?_⟩)
  · unfold SaidQueued
    rw [hclient, hbuffer]
    exact htalk
  · rw [htalk]
    exact .opened request _ .received
  · rw [hpending] at hmem
    exact hs.not_pending hmem rfl

theorem talks_handled {s s' : State P N} {c : Completion} {p : Pending P} (hc : Consistent s [p.slot])
    (h : Talks s) (hp : TalksOf s p) (hs : Handled s c p s') : Talks s' := by
  have hsaid := hp.said
  cases hs with
  | failed hresult => exact h
  | accepted j hop hresult hfree hne => exact h.accept hc (hp.held hop) hfree hne
  | answered response r hop hresult hno hr hresponse =>
    rw [hop] at hsaid
    rw [State.afterRead_buffer] at hno
    have hquery : queryOf (memcpy (s.pool p.slot).buffer c.data) = none := by
      by_contra hsome
      exact hno (wants_of_queryOf hsome)
    have hended := @Ended.refused (s.client p.slot) _ r.buffer hquery
    refine h.ends _ [⟨.write, p.slot⟩] hc hp (by rw [hop]; decide) rfl rfl
      (fun j hj => Function.update_of_ne hj ..) rfl rfl (by simp) (List.append_assoc ..) (by simp [Obs.of]) ?_
    rw [show talk s.log (s.client p.slot) = [] from hsaid]
    exact hended
  | queued queue r hop hresult hbuffer hr hpush =>
    obtain ⟨queue', _, hpush', hsub, _⟩ := push_contents hc.sound p.slot
    rw [hpush] at hpush'
    cases hpush'
    rw [State.afterRead_buffer] at hbuffer
    refine h.queue (memcpy (s.pool p.slot).buffer c.data) hc hp hop rfl rfl
      (fun j hj => Function.update_of_ne hj ..) ?_ ?_ rfl (fun j hj => ?_) rfl
    · dsimp only
      rw [Function.update_self, hbuffer]
    · dsimp only
      rw [Function.update_self]
      exact hr.ring
    · exact (List.mem_append.mp (hsub.subset hj)).imp_right List.mem_singleton.mp
  | replied d conn r handler hop hresult hhandler hdbconn hcall =>
    rw [hop] at hsaid
    obtain ⟨hopened, query, hquery, hfor⟩ := hsaid
    cases hhandler.symm.trans hfor
    have hreply : ((handlerFor query).call c.polls (slotWith (s.pool p.slot).buffer) (s.conns d)).map
        (fun p => responseText p.1.buffer) = .ok (responseText r.buffer) := by
      rw [handler_text (handlerFor query) c.polls (slotWith (s.pool p.slot).buffer) (s.pool p.slot), hcall]
      rfl
    exact h.ends _ [⟨.write, p.slot⟩] hc hp (by rw [hop]; decide) rfl rfl
      (fun j hj => Function.update_of_ne hj ..) rfl rfl (by simp) rfl (by simp [Obs.of])
      (.replied _ r.buffer _ query c.polls (s.conns d) hopened hquery hreply)
  | written hop hresult =>
    rw [hop] at hsaid
    refine h.ends [] [⟨.close, p.slot⟩] hc hp (by rw [hop]; decide) rfl rfl
      (fun j hj => Function.update_of_ne hj ..) rfl rfl (by simp) (List.append_nil _).symm (by simp) ?_
    rw [List.append_nil]
    exact hsaid
  | closed hop hresult =>
    rw [hop] at hsaid
    refine h.ends [] [] hc hp (by rw [hop]; decide) rfl rfl
      (fun j hj => Function.update_of_ne hj ..) rfl (List.append_nil _).symm (by simp) (List.append_nil _).symm
      (by simp) ?_
    rw [List.append_nil]
    exact hsaid

/-! ### Every run -/

theorem talks_step {s s' : State P N} {input : Input} (h : Consistent s [] ∧ Talks s)
    (hs : s.step input = .ok s') : Consistent s' [] ∧ Talks s' := by
  refine ⟨consistent_step h.1 hs, ?_⟩
  rcases step_cases hs with ⟨c, outcomes, t, rfl, ht, hd⟩ | ⟨outcomes, rfl, hd⟩
  · obtain ⟨p, hp, _, hcompleted, hhandled, hcons⟩ := handle_cases h.1 ht
    obtain ⟨hrest, hof⟩ := h.2.completed hp
    exact talks_dispatch hcons (talks_handled hcompleted hrest hof hhandled) hd
  · exact talks_dispatch h.1 h.2 hd

theorem talks_start {s : State P N} (hs : (State.start : Except Stop (State P N)) = .ok s) : Talks s := by
  obtain ⟨i, t, outcomes, rfl, ht, hd⟩ := start_cases hs
  have hnone : ∀ j, ¬ Busy ({State.zero with
      pool := Function.update (fun _ => .zero) i {ReqRes.zero with ring := true}
      pending := [⟨.accept, i⟩]} : State P N) j := by
    intro j hj
    rcases hj with ⟨p, hp, hop, _⟩ | hj
    · rw [List.mem_singleton.mp hp] at hop
      exact hop rfl
    · cases hj
  refine talks_dispatch ht ⟨fun p hp => ?_, fun j hj => ?_, fun a b ha => absurd ha (hnone a),
    fun j hj => absurd hj (hnone j), fun _ _ => rfl, fun _ => .silent, fun client hlt => ?_⟩ hd
  · rw [List.mem_singleton.mp hp]
    trivial
  · cases hj
  · cases hlt

/-- **On every connection there is one exchange**, in every run: what is recorded of it
is a request, at most one command, which is the request's, and one answer, which the
function for the command's reply has made, in this order and as far as it has come. -/
theorem exchanges {s : State P N} (hs : (State.start : Except Stop (State P N)) = .ok s) (inputs : List Input) :
    Throughout State.step (fun s => ∀ client, Exchange client (talk s.log client)) s inputs :=
  (throughout_of_all (fun _ _ _ => talks_step) ⟨consistent_start hs, talks_start hs⟩ inputs).mono
    fun _ h => h.2.exchange

theorem exchanges_extratoClient :
    ∃ s u : State 2 1, State.start = .ok s ∧ run State.step s extratoClient = .ok u ∧
      ∀ client, Exchange client (talk u.log client) := by
  obtain ⟨s, t, u, hs, _, _, hu, _⟩ := extratoClient_runs
  exact ⟨s, u, hs, hu, (exchanges hs extratoClient).last hu⟩

/-! ### Every connection is answered -/

/-- A server at rest has no slot for an exchange that has not come to its end. -/
theorem AtRest.ended {s : State P N} (h : AtRest s) (htalks : Talks s) {client : Nat} (hlt : client < s.accepted) :
    Ended client (talk s.log client) := by
  obtain ⟨i, hpending, hzero⟩ := h.accept
  apply (htalks.held client hlt).resolve_left
  intro hheld
  obtain ⟨j, ⟨hring, hnot⟩, _⟩ := hheld
  by_cases hj : j = i
  · rw [hj, hpending] at hnot
    exact hnot (List.mem_singleton_self _)
  · rw [hzero j hj] at hring
    cases hring

theorem talks_handsOn {s s' : State P N} {input : Input} (h : (Working s ∧ Conserved s ∧ Accepting s) ∧ Talks s)
    (hC : HandsOn s input) (hs : s.step input = .ok s') : (Working s' ∧ Conserved s' ∧ Accepting s') ∧ Talks s' :=
  ⟨working_handsOn h.1 hC hs, (talks_step ⟨h.1.1.consistent, h.2⟩ hs).2⟩

/-- **No connection is forgotten**: in every run where every slot is handed on, each
connection that was accepted has been answered, once, whenever the server waits for
nobody but a new client. -/
theorem all_answered (hN : 0 < N) {s : State P N} (hs : (State.start : Except Stop (State P N)) = .ok s)
    (inputs : List Input) (h : EachStep State.step HandsOn s inputs) :
    Throughout State.step (fun s => (∀ p ∈ s.pending, p.op = .accept) →
      ∀ client, client < s.accepted → Ended client (talk s.log client)) s inputs := by
  apply (throughout_of_steps (fun _ _ _ => talks_handsOn) ⟨handsOn_start hs, talks_start hs⟩ h).mono
  intro s h honly client hlt
  exact (h.1.1.atRest hN h.1.2.1 h.1.2.2 honly).ended h.2 hlt

theorem all_answered_extratoClient :
    ∃ s u : State 2 1, State.start = .ok s ∧ run State.step s extratoClient = .ok u ∧
      ∀ client, client < u.accepted → Ended client (talk u.log client) := by
  obtain ⟨s, t, u, hs, _, _, hu, hC, hlast⟩ := extratoClient_runs
  exact ⟨s, u, hs, hu, (all_answered (by decide) hs extratoClient hC).last hu hlast⟩

end Rinha.Server
