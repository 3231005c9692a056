import Rinha.Server.Provenance

/-! What a turn does to the commands in progress.

A command that is in progress on a connection stays so until its reply is read, and a
turn reads one reply at most (`State.reads`). The turn may send commands on idle
connections, each with a number of its own. It gives a 200 response with a reply only
where it reads one, with the text of its result. This holds of every turn
(`advances_step`). -/
namespace Rinha.Server
open Library Request Client

variable {P N : Nat}

/-- The reply that an input has the server read: a wait on a connection comes to its
end with the input there. -/
def State.reads (s : State P N) : Input → Option (Fin N × Command)
  | .completes c _ =>
    match s.pending[c.index]? with
    | none => none
    | some p =>
      if p.op = .dbRead ∧ 0 ≤ c.result ∧ waitDb c.polls = .ok 0 then
        match (s.pool p.slot).dbconn with
        | none => none
        | some d => (s.conns d).map fun command => (d, command)
      else none
  | .interrupted _ => none
  | .fails => none

/-- The response is a 200 with the command's first result. -/
def GivesReply (buffer : List UInt8) (command : Command) : Prop :=
  ∃ request result, command.results.head? = some result ∧ result.tuplesOk = true ∧ result.value.isSome ∧
    buffer = memcpy request (snprintf maxReqRespSize (okText ((replyText result).length + 1) (replyText result)))

/-- The commands in progress have numbers of their own, of commands that were sent. -/
structure Tagged (s : State P N) : Prop where
  below : ∀ c command, s.conns c = some command → command.tag < s.sent
  apart : ∀ c d command command', s.conns c = some command → s.conns d = some command' →
    command.tag = command'.tag → c = d

structure Advances (s t : State P N) (reply : Option (Fin N × Command)) : Prop where
  sent : s.sent ≤ t.sent
  tagged : Tagged s → Tagged t
  conns : ∀ c command, t.conns c = some command → (s.conns c = some command ∧ reply ≠ some (c, command)) ∨
    (s.sent ≤ command.tag ∧ command.tag < t.sent ∧ ∃ client, .sent client command.tag command.query ∈ t.log)
  keeps : ∀ c command, s.conns c = some command → reply ≠ some (c, command) → t.conns c = some command
  log : ∃ extra, t.log = s.log ++ extra ∧
    (∀ client buffer command, .wrote client buffer (some command) ∈ extra → status buffer = bytes "200" →
      (∃ c, reply = some (c, command)) ∧ GivesReply buffer command) ∧
      (delivered extra).Sublist (reply.toList.map fun r => r.2.tag)

/-- Fewer commands in progress. -/
theorem Tagged.sub {s t : State P N} (h : Tagged s) (hsent : s.sent ≤ t.sent)
    (hconns : ∀ c command, t.conns c = some command → s.conns c = some command) : Tagged t where
  below := fun c command hc => (h.below c command (hconns c command hc)).trans_le hsent
  apart := fun c d command command' hc hd => h.apart c d command command' (hconns c command hc) (hconns d command' hd)

/-- A turn goes on without a reply. -/
theorem Advances.trans {s t u : State P N} {reply : Option (Fin N × Command)} (h : Advances s t reply)
    (h' : Advances t u none) : Advances s u reply := by
  obtain ⟨extra, hlog, hwrote, hdelivered⟩ := h.log
  obtain ⟨extra', hlog', hwrote', hdelivered'⟩ := h'.log
  constructor
  · exact h.sent.trans h'.sent
  · exact fun htagged => h'.tagged (h.tagged htagged)
  · intro c command hc
    rcases h'.conns c command hc with ⟨hold, _⟩ | ⟨hle, hlt, hsent⟩
    · refine (h.conns c command hold).imp_right fun hnew => ?_
      obtain ⟨hle, hlt, client, hsent⟩ := hnew
      refine ⟨hle, hlt.trans_le h'.sent, client, ?_⟩
      rw [hlog']
      exact List.mem_append_left _ hsent
    · exact .inr ⟨h.sent.trans hle, hlt, hsent⟩
  · exact fun c command hc hreply => h'.keeps c command (h.keeps c command hc hreply) (by simp)
  · refine ⟨extra ++ extra', ?_, fun client buffer command hmem hstatus => ?_, ?_⟩
    · rw [hlog', hlog, List.append_assoc]
    · rcases List.mem_append.mp hmem with hmem | hmem
      · exact hwrote client buffer command hmem hstatus
      · obtain ⟨⟨c, hc⟩, _⟩ := hwrote' client buffer command hmem hstatus
        cases hc
    · rw [delivered_append, List.sublist_nil.mp hdelivered', List.append_nil]
      exact hdelivered

/-- A change that leaves the connections, and gives no reply. -/
theorem Advances.quiet {s t : State P N} (hsent : t.sent = s.sent) (hconns : t.conns = s.conns) (extra : List Obs)
    (hlog : t.log = s.log ++ extra) (hextra : ∀ client buffer command, .wrote client buffer (some command) ∉ extra) :
    Advances s t none where
  sent := hsent.ge
  tagged := fun h => h.sub hsent.ge fun c command hc => hconns ▸ hc
  conns := fun c command hc => .inl ⟨hconns ▸ hc, by simp⟩
  keeps := fun c command hc _ => by rw [hconns]; exact hc
  log := by
    refine ⟨extra, hlog, fun client buffer command hmem => absurd hmem (hextra client buffer command), ?_⟩
    have hnone : delivered extra = [] := by
      apply List.filterMap_eq_nil_iff.mpr
      intro o ho
      match o with
      | .received _ _ => rfl
      | .sent _ _ _ => rfl
      | .wrote _ _ none => rfl
      | .wrote client buffer (some command) => exact absurd ho (hextra client buffer command)
    rw [hnone]
    exact List.nil_sublist _

theorem Advances.same {s t : State P N} (hsent : t.sent = s.sent) (hconns : t.conns = s.conns) (hlog : t.log = s.log) :
    Advances s t none :=
  .quiet hsent hconns [] (hlog.trans (List.append_nil _).symm) fun _ _ _ => List.not_mem_nil

theorem advances_refuseTurn (s : State P N) (queue : Queue (Fin P)) (i : Fin P) (c : Fin N) (response : List UInt8) :
    Advances s (s.refuseTurn queue i c response) none :=
  .quiet rfl rfl [.wrote (s.client i) (declined (s.pool i) c response).buffer none] rfl (by simp)

theorem advances_sendTurn (s : State P N) (queue : Queue (Fin P)) (i : Fin P) (c : Fin N) (query : Query)
    (o : Outcome) : Advances s (s.sendTurn queue i c query o) none := by
  by_cases hsends : s.Sends c o
  · have hlog : (s.sendTurn queue i c query o).log = s.log ++ [.sent (s.client i) s.sent query] := if_pos hsends
    have hconns : (s.sendTurn queue i c query o).conns =
        Function.update s.conns c (some ⟨s.sent, query, o.results⟩) := if_pos hsends
    have hsent : (s.sendTurn queue i c query o).sent = s.sent + 1 := if_pos hsends
    constructor
    · omega
    · intro h
      constructor
      · intro d command hd
        rw [hconns] at hd
        rcases conns_update hd with ⟨_, heq⟩ | ⟨_, hold⟩
        · cases heq
          exact hsent ▸ Nat.lt_succ_self _
        · have := h.below d command hold
          omega
      · intro d e command command' hd he htag
        rw [hconns] at hd he
        rcases conns_update hd with ⟨rfl, heq⟩ | ⟨_, hold⟩
        · cases heq
          rcases conns_update he with ⟨rfl, _⟩ | ⟨_, hold'⟩
          · rfl
          · exact absurd (h.below e command' hold') (by rw [← htag]; exact lt_irrefl _)
        · rcases conns_update he with ⟨rfl, heq'⟩ | ⟨_, hold'⟩
          · cases heq'
            exact absurd (h.below d command hold) (by rw [htag]; exact lt_irrefl _)
          · exact h.apart d e command command' hold hold' htag
    · intro d command hd
      rw [hconns] at hd
      rcases conns_update hd with ⟨_, heq⟩ | ⟨_, hold⟩
      · cases heq
        refine .inr ⟨le_rfl, hsent ▸ Nat.lt_succ_self _, s.client i, ?_⟩
        rw [hlog]
        exact List.mem_append_right _ (List.mem_singleton_self _)
      · exact .inl ⟨hold, by simp⟩
    · intro d command hd _
      rw [hconns]
      by_cases hdc : d = c
      · rw [hdc, Option.isNone_iff_eq_none.mp hsends.1] at hd
        cases hd
      · rw [Function.update_of_ne hdc]
        exact hd
    · exact ⟨_, hlog, by simp, List.nil_sublist _⟩
  · exact .same (if_neg hsends) (if_neg hsends) (if_neg hsends)

theorem advances_getDbconn (s : State P N) : Advances s s.getDbconn.2 none := by
  unfold State.getDbconn
  split
  · exact .same rfl rfl rfl
  · exact .same rfl rfl rfl

/-- A dispatch reads no reply. -/
theorem advances_dispatch {s s' : State P N} (hs : Consistent s []) {outcomes : Nat → Outcome}
    (hd : s.queuDispatch outcomes = .ok s') : Advances s s' none := by
  have hkept : KeptByTurns fun (_ : Option (Fin N)) (t : State P N) => Advances s t none := by
    constructor
    · intro c t queue ht _ _
      exact ht.trans (.same rfl rfl rfl)
    · intro c t queue i response _ ht _ _ _ _
      exact ht.trans (advances_refuseTurn t queue i c response)
    · intro c t queue i query o _ ht _ _ _
      exact (ht.trans (advances_sendTurn t queue i c query o)).trans (advances_getDbconn _)
  exact queuDispatch_keeps (Q := fun t => Advances s t none) hkept (fun _ ht => ht)
    (fun _ _ ht => ht.trans (.same rfl rfl rfl)) hs (advances_getDbconn s) hd

/-- A 200 that is read from a result has the text of the connection's first one. -/
theorem reported_reply {r r' : ReqRes (Fin N)} {command : Command}
    (h : Reported r (pqGetResult (some command)).1 r') (hstatus : status r'.buffer = bytes "200") :
    GivesReply r'.buffer command := by
  cases h with
  | failed _ hother =>
    rw [hstatus] at hother
    rcases hother with heq | heq
    · exact absurd heq (by decide)
    · exact absurd heq (by decide)
  | @value result hres ok hvalue =>
    obtain ⟨command', heq, hhead⟩ := pqGetResult_some hres
    cases heq
    exact ⟨r.buffer, result, hhead, ok, hvalue, rfl⟩

theorem reported_none {r r' : ReqRes (Fin N)} (h : Reported r none r') : status r'.buffer ≠ bytes "200" := by
  cases h with
  | failed _ hother =>
    intro hstatus
    rw [hstatus] at hother
    rcases hother with heq | heq
    · exact absurd heq (by decide)
    · exact absurd heq (by decide)
  | value hres => cases hres

/-- The failed wait leaves the command in progress, and is reported. -/
theorem advances_failed {s t : State P N} {client : Nat} {r r' : ReqRes (Fin N)} {source : PGconn}
    (hr : Reported r none r') (hsent : t.sent = s.sent) (hconns : t.conns = s.conns)
    (hlog : t.log = s.log ++ [.wrote client r'.buffer source]) : Advances s t none where
  sent := hsent.ge
  tagged := fun h => h.sub hsent.ge fun c command hc => hconns ▸ hc
  conns := fun c command hc => .inl ⟨hconns ▸ hc, by simp⟩
  keeps := fun c command hc _ => by rw [hconns]; exact hc
  log := by
    refine ⟨_, hlog, fun client' buffer command hmem hstatus => ?_, ?_⟩
    · cases List.mem_singleton.mp hmem
      exact absurd hstatus (reported_none hr)
    · rw [delivered_other (reported_none hr)]
      exact List.nil_sublist _

/-- The wait comes to its end: the command is answered, and is no longer in progress. -/
theorem advances_read {s t : State P N} {client : Nat} {r r' : ReqRes (Fin N)} {d : Fin N}
    (hr : Reported r (pqGetResult (s.conns d)).1 r') (hsent : t.sent = s.sent)
    (hconns : t.conns = Function.update s.conns d none)
    (hlog : t.log = s.log ++ [.wrote client r'.buffer (s.conns d)]) :
    Advances s t ((s.conns d).map fun command => (d, command)) where
  sent := hsent.ge
  tagged := by
    refine fun h => h.sub hsent.ge fun c command hc => ?_
    rw [hconns] at hc
    exact ((conns_update hc).resolve_left fun heq => by cases heq.2).2
  conns := by
    intro c command hc
    rw [hconns] at hc
    rcases conns_update hc with ⟨_, heq⟩ | ⟨hne, hold⟩
    · cases heq
    · refine .inl ⟨hold, fun hreply => hne ?_⟩
      obtain ⟨_, _, heq⟩ := Option.map_eq_some_iff.mp hreply
      cases heq
      rfl
  keeps := by
    intro c command hc hreply
    rw [hconns]
    by_cases hcd : c = d
    · rw [hcd] at hc hreply
      rw [hc] at hreply
      exact absurd rfl hreply
    · rw [Function.update_of_ne hcd]
      exact hc
  log := by
    refine ⟨_, hlog, fun client' buffer command hmem hstatus => ?_, ?_⟩
    · have hwrote := List.mem_singleton.mp hmem
      simp only [Obs.wrote.injEq] at hwrote
      obtain ⟨_, rfl, hcommand⟩ := hwrote
      rw [← hcommand] at hr ⊢
      exact ⟨⟨d, rfl⟩, reported_reply hr hstatus⟩
    · cases s.conns d with
      | none => exact List.nil_sublist _
      | some command =>
        by_cases hstatus : status r'.buffer = bytes "200"
        · simp [delivered, hstatus]
        · rw [delivered_other hstatus]
          exact List.nil_sublist _

/-- A completion reads the reply that it is for. -/
theorem advances_handled {s s' : State P N} {c : Completion} {p : Pending P} {reply : Option (Fin N × Command)}
    (hreads : p.op = .dbRead → 0 ≤ c.result → ∀ d, (s.pool p.slot).dbconn = some d →
      reply = if waitDb c.polls = .ok 0 then (s.conns d).map fun command => (d, command) else none)
    (hnone : p.op ≠ .dbRead ∨ c.result < 0 → reply = none) (hs : Handled s c p s') : Advances s s' reply := by
  cases hs with
  | failed hresult =>
    rw [hnone (.inr hresult)]
    exact .same rfl rfl rfl
  | accepted j hop hresult hfree hne =>
    rw [hnone (.inl (by rw [hop]; decide))]
    exact .same rfl rfl rfl
  | answered response r hop hresult hno hr hresponse =>
    rw [hnone (.inl (by rw [hop]; decide))]
    exact .quiet rfl rfl _ (List.append_assoc ..) (by simp)
  | queued queue r hop hresult hbuffer hr hpush =>
    rw [hnone (.inl (by rw [hop]; decide))]
    exact .quiet rfl rfl _ rfl (by simp)
  | written hop hresult =>
    rw [hnone (.inl (by rw [hop]; decide))]
    exact .same rfl rfl rfl
  | closed hop hresult =>
    rw [hnone (.inl (by rw [hop]; decide))]
    exact .same rfl rfl rfl
  | replied d conn r handler hop hresult hhandler hdbconn hcall =>
    rw [hreads hop hresult d hdbconn]
    rcases handler_cases hcall with ⟨hwait, rfl, hreported⟩ | ⟨hwait, rfl, hreported⟩
    · rw [if_neg (by rw [hwait]; decide)]
      exact advances_failed hreported rfl (Function.update_eq_self d s.conns) rfl
    · rw [if_pos hwait]
      exact advances_read hreported rfl rfl rfl

/-- A turn reads the one reply that its input has it read, and may send commands. -/
theorem advances_step {s s' : State P N} {input : Input} (h : Consistent s []) (hs : s.step input = .ok s') :
    Advances s s' (s.reads input) := by
  rcases step_cases hs with ⟨c, outcomes, t, rfl, ht, hd⟩ | ⟨outcomes, rfl, hd⟩
  · obtain ⟨p, hp, _, _, hhandled, hcons⟩ := handle_cases h ht
    have hreads : s.reads (.completes c outcomes) =
        if p.op = .dbRead ∧ 0 ≤ c.result ∧ waitDb c.polls = .ok 0 then
          match (s.pool p.slot).dbconn with
          | none => none
          | some d => (s.conns d).map fun command => (d, command)
        else none := by
      simp only [State.reads, hp]
    have hhandle : Advances (s.completed c.index) t (s.reads (.completes c outcomes)) := by
      refine advances_handled (fun hop hresult d hdbconn => ?_) (fun hnot => ?_) hhandled
      · have hdbconn' : (s.pool p.slot).dbconn = some d := hdbconn
        rw [hreads, hdbconn']
        simp only [hop, hresult, true_and]
        rfl
      · rw [hreads, if_neg fun hall => hnot.elim (fun hop => hop hall.1) fun hneg => not_lt.mpr hall.2.1 hneg]
    have hsame : Advances s t (s.reads (.completes c outcomes)) :=
      ⟨hhandle.sent, fun h => hhandle.tagged ⟨h.below, h.apart⟩, hhandle.conns, hhandle.keeps, hhandle.log⟩
    exact hsame.trans (advances_dispatch hcons hd)
  · exact advances_dispatch h hd

end Rinha.Server
