import Rinha.Server.Ownership
import Rinha.Server.Requests

/-! Where the responses come from.

A slot keeps a connection, not a command, so the reply it gets is that of whatever
command the connection has in progress. In every run of clean turns this is the
command that was sent for the request in the slot (`Traced`), and its reply is
given to nobody else. -/
namespace Rinha.Server
open Library Request Client

variable {P N : Nat}

/-! ### The record -/

/-- The commands that were sent. -/
def sentTags (log : List Obs) : List Nat :=
  log.filterMap fun
    | .sent _ tag _ => some tag
    | _ => none

/-- The commands whose reply was given in a 200 response. -/
def delivered (log : List Obs) : List Nat :=
  log.filterMap fun
    | .wrote _ buffer (some command) => if status buffer = bytes "200" then some command.tag else none
    | _ => none

/-- The command was sent for this client, and is the one its request asks for. -/
def SentFor (log : List Obs) (client : Nat) (request : List UInt8) (command : Command) : Prop :=
  .received client request ∈ log ∧ queryOf request = some command.query ∧
    .sent client command.tag command.query ∈ log

/-- A 200 response is to a request of this client: for a route that does not use
the database, or with the reply to the command that was sent for it. -/
def Own (log : List Obs) (client : Nat) (buffer : List UInt8) (source : PGconn) : Prop :=
  (∃ request reqdata, source = none ∧ .received client request ∈ log ∧
      requestParser request = .ok reqdata ∧ (reqdata.uri = .exit ∨ reqdata.uri = .ping)) ∨
    ∃ request command result, source = some command ∧ SentFor log client request command ∧
      command.results.head? = some result ∧ result.tuplesOk = true ∧ result.value.isSome ∧
        buffer = memcpy request (snprintf maxReqRespSize
          (okText ((replyText result).length + 1) (replyText result)))

/-- Every 200 response is the client's own; the commands sent are told apart by
their tags, and no reply is given twice. -/
structure OwnReplies (s : State P N) : Prop where
  own : ∀ client buffer source, .wrote client buffer source ∈ s.log → status buffer = bytes "200" →
    Own s.log client buffer source
  sent : (sentTags s.log).Nodup
  once : (delivered s.log).Nodup

/-- The same, and a client has one request, so it is the one its reply is to. -/
structure Provenance (s : State P N) : Prop extends OwnReplies s where
  one : OneRequest s

theorem sentTags_append (log extra : List Obs) : sentTags (log ++ extra) = sentTags log ++ sentTags extra :=
  List.filterMap_append ..

theorem delivered_append (log extra : List Obs) :
    delivered (log ++ extra) = delivered log ++ delivered extra := List.filterMap_append ..

theorem SentFor.mono {log : List Obs} {client : Nat} {request : List UInt8} {command : Command}
    (h : SentFor log client request command) (extra : List Obs) :
    SentFor (log ++ extra) client request command :=
  ⟨List.mem_append_left _ h.1, h.2.1, List.mem_append_left _ h.2.2⟩

theorem Own.mono {log : List Obs} {client : Nat} {buffer : List UInt8} {source : PGconn}
    (h : Own log client buffer source) (extra : List Obs) : Own (log ++ extra) client buffer source := by
  rcases h with ⟨request, reqdata, hs, hr, hrest⟩ | ⟨request, command, result, hs, hsent, hrest⟩
  · exact .inl ⟨request, reqdata, hs, List.mem_append_left _ hr, hrest⟩
  · exact .inr ⟨request, command, result, hs, hsent.mono extra, hrest⟩

/-! ### What is kept -/

/-- A command in progress on a connection that a request waits for was sent for
this request; and no command in progress has had its reply given. -/
structure Traced (s : State P N) : Prop where
  replies : OwnReplies s
  queued : ∀ i ∈ s.queue.contents, .received (s.client i) (s.pool i).buffer ∈ s.log
  waiting : ∀ p ∈ s.pending, p.op = .dbRead → ∀ c, (s.pool p.slot).dbconn = some c →
    ∀ command, s.conns c = some command → SentFor s.log (s.client p.slot) (s.pool p.slot).buffer command
  fresh : ∀ c command, s.conns c = some command → command.tag < s.sent ∧ command.tag ∉ delivered s.log
  apart : ∀ c d command command', s.conns c = some command → s.conns d = some command' →
    command.tag = command'.tag → c = d
  sentBelow : ∀ tag ∈ sentTags s.log, tag < s.sent
  deliveredBelow : ∀ tag ∈ delivered s.log, tag < s.sent

/-- A change that sends no command. The replies it gives are of commands that are
no longer in progress, and were not given before. -/
theorem Traced.deliver {s s' : State P N} (h : Traced s) (extra : List Obs) (hlog : s'.log = s.log ++ extra)
    (hsentTags : sentTags extra = []) (hsent : s'.sent = s.sent)
    (hown : ∀ client buffer source, .wrote client buffer source ∈ extra → status buffer = bytes "200" →
      Own s'.log client buffer source)
    (hnodup : (delivered s.log ++ delivered extra).Nodup) (hbelow : ∀ tag ∈ delivered extra, tag < s.sent)
    (hconns : ∀ c command, s'.conns c = some command →
      s.conns c = some command ∧ command.tag ∉ delivered extra)
    (hqueued : ∀ i ∈ s'.queue.contents, .received (s'.client i) (s'.pool i).buffer ∈ s'.log)
    (hpending : ∀ p ∈ s'.pending, p.op = .dbRead →
      p ∈ s.pending ∧ s'.pool p.slot = s.pool p.slot ∧ s'.client p.slot = s.client p.slot) : Traced s' := by
  have hsentTags' : sentTags s'.log = sentTags s.log := by
    rw [hlog, sentTags_append, hsentTags, List.append_nil]
  have hdelivered' : delivered s'.log = delivered s.log ++ delivered extra := by
    rw [hlog, delivered_append]
  constructor
  · refine ⟨fun client buffer source hmem hstatus => ?_, ?_, ?_⟩
    · have hmem' := hmem
      rw [hlog] at hmem'
      rcases List.mem_append.mp hmem' with hold | hnew
      · rw [hlog]
        exact (h.replies.own client buffer source hold hstatus).mono extra
      · exact hown client buffer source hnew hstatus
    · rw [hsentTags']
      exact h.replies.sent
    · rw [hdelivered']
      exact hnodup
  · exact hqueued
  · intro p hp hop c hconn command hcommand
    obtain ⟨hold, hpool, hclient⟩ := hpending p hp hop
    rw [hpool] at hconn ⊢
    rw [hclient, hlog]
    exact (h.waiting p hold hop c hconn command (hconns c command hcommand).1).mono extra
  · intro c command hcommand
    obtain ⟨hold, hnot⟩ := hconns c command hcommand
    obtain ⟨hlt, hnot'⟩ := h.fresh c command hold
    rw [hsent, hdelivered', List.mem_append, not_or]
    exact ⟨hlt, hnot', hnot⟩
  · intro c d command command' hc hd
    exact h.apart c d command command' (hconns c command hc).1 (hconns d command' hd).1
  · rw [hsentTags', hsent]
    exact h.sentBelow
  · rw [hdelivered', hsent]
    exact fun tag htag => (List.mem_append.mp htag).elim (h.deliveredBelow tag) (hbelow tag)

/-- A change that sends no command and gives no reply. -/
theorem Traced.extend {s s' : State P N} (h : Traced s) (extra : List Obs) (hlog : s'.log = s.log ++ extra)
    (hsentTags : sentTags extra = []) (hdelivered : delivered extra = [])
    (hown : ∀ client buffer source, .wrote client buffer source ∈ extra → status buffer = bytes "200" →
      Own s'.log client buffer source)
    (hsent : s'.sent = s.sent) (hconns : ∀ c command, s'.conns c = some command → s.conns c = some command)
    (hqueued : ∀ i ∈ s'.queue.contents, .received (s'.client i) (s'.pool i).buffer ∈ s'.log)
    (hpending : ∀ p ∈ s'.pending, p.op = .dbRead →
      p ∈ s.pending ∧ s'.pool p.slot = s.pool p.slot ∧ s'.client p.slot = s.client p.slot) : Traced s' := by
  refine h.deliver extra hlog hsentTags hsent hown ?_ ?_ (fun c command hc => ⟨hconns c command hc, ?_⟩) hqueued
    hpending
  · rw [hdelivered, List.append_nil]
    exact h.replies.once
  · rw [hdelivered]
    nofun
  · rw [hdelivered]
    exact List.not_mem_nil

/-- A change that records nothing. -/
theorem Traced.same {s s' : State P N} (h : Traced s) (hlog : s'.log = s.log) (hsent : s'.sent = s.sent)
    (hconns : ∀ c command, s'.conns c = some command → s.conns c = some command)
    (hqueued : ∀ i ∈ s'.queue.contents, .received (s'.client i) (s'.pool i).buffer ∈ s.log)
    (hpending : ∀ p ∈ s'.pending, p.op = .dbRead →
      p ∈ s.pending ∧ s'.pool p.slot = s.pool p.slot ∧ s'.client p.slot = s.client p.slot) : Traced s' :=
  h.extend [] (hlog.trans (List.append_nil _).symm) rfl rfl nofun hsent hconns
    (fun i hi => hlog ▸ hqueued i hi) hpending

theorem Traced.getDbconn {s : State P N} (h : Traced s) : Traced s.getDbconn.2 := by
  rcases getDbconn_cases s with ⟨c, _, heq⟩ | heq
  · rw [heq]
    exact h.same rfl rfl (fun _ _ => id) h.queued fun p hp _ => ⟨hp, rfl, rfl⟩
  · rw [heq]
    exact h

/-! ### The dispatch -/

/-- A refusal is no 200. -/
theorem declined_status {r : ReqRes (Fin N)} {c : Fin N} {response : List UInt8} (hr : Refusal response) :
    status (declined r c response).buffer ≠ bytes "200" := by
  obtain ⟨hlen, hcode⟩ := hr.code
  unfold declined ReqRes.setStaticResponse
  rw [status_memcpy hlen]
  exact hcode

theorem Traced.refuseTurn {s : State P N} {queue : Queue (Fin P)} {i : Fin P} {c : Fin N}
    {response : List UInt8} (h : Traced s) (hs : Consistent s [])
    (hcons : s.queue.contents = i :: queue.contents) (hr : Refusal response) :
    Traced (s.refuseTurn queue i c response) := by
  have hstatus : status (declined (s.pool i) c response).buffer ≠ bytes "200" := declined_status hr
  obtain ⟨hqueue, hpending⟩ := head_elsewhere hs hcons
  refine h.extend [.wrote (s.client i) (declined (s.pool i) c response).buffer none] rfl rfl rfl ?_ rfl
    (fun _ _ => id) ?_ ?_
  · intro client buffer source hmem h200
    cases List.mem_singleton.mp hmem
    exact absurd h200 hstatus
  · intro j hj
    rw [s.refuseTurn_ne queue c response (hqueue j hj)]
    exact List.mem_append_left _ (h.queued j (by rw [hcons]; exact List.mem_cons_of_mem i hj))
  · intro p hp hop
    rcases List.mem_append.mp hp with hp | hp
    · exact ⟨hp, s.refuseTurn_ne queue c response (hpending p hp), rfl⟩
    · cases List.mem_singleton.mp hp
      cases hop

theorem not_awaited {s : State P N} {c : Fin N} (h : s.awaiting c = 0) {p : Pending P} (hp : p ∈ s.pending)
    (hop : p.op = .dbRead) : (s.pool p.slot).dbconn ≠ some c := by
  intro hconn
  have hnone := List.countP_eq_zero.mp h p hp
  simp [hop, hconn] at hnone

/-- A number from a counter that the list is below is not in the list. -/
theorem nodup_concat_below {l : List Nat} {n : Nat} (h : l.Nodup) (hbelow : ∀ m ∈ l, m < n) :
    (l ++ [n]).Nodup := by
  refine List.nodup_append.mpr ⟨h, List.nodup_singleton n, fun m hm k hk heq => ?_⟩
  rw [List.mem_singleton.mp hk] at heq
  exact absurd (hbelow m hm) (by omega)

theorem conns_update {conns : Fin N → PGconn} {c e : Fin N} {conn : PGconn} {command : Command}
    (h : Function.update conns c conn e = some command) :
    (e = c ∧ conn = some command) ∨ (e ≠ c ∧ conns e = some command) := by
  by_cases hec : e = c
  · rw [hec, Function.update_self] at h
    exact .inl ⟨hec, h⟩
  · rw [Function.update_of_ne hec] at h
    exact .inr ⟨hec, h⟩

/-- A command is sent: its number is above those of all the others. -/
theorem Traced.sent {s s' : State P N} {c : Fin N} {client : Nat} {query : Query} {results : List PGresult}
    (h : Traced s) (hlog : s'.log = s.log ++ [.sent client s.sent query])
    (hconns : s'.conns = Function.update s.conns c (some ⟨s.sent, query, results⟩)) (hsent : s'.sent = s.sent + 1)
    (hqueued : ∀ i ∈ s'.queue.contents, .received (s'.client i) (s'.pool i).buffer ∈ s'.log)
    (hwaiting : ∀ p ∈ s'.pending, p.op = .dbRead → ∀ e, (s'.pool p.slot).dbconn = some e →
      ∀ command, s'.conns e = some command →
        SentFor s'.log (s'.client p.slot) (s'.pool p.slot).buffer command) : Traced s' := by
  have hdelivered : delivered s'.log = delivered s.log := by
    rw [hlog, delivered_append]
    exact List.append_nil _
  have hsentTags : sentTags s'.log = sentTags s.log ++ [s.sent] := by
    rw [hlog, sentTags_append]
    rfl
  constructor
  · refine ⟨fun client' buffer source hmem hstatus => ?_, ?_, ?_⟩
    · rw [hlog] at hmem ⊢
      rcases List.mem_append.mp hmem with hold | hnew
      · exact (h.replies.own client' buffer source hold hstatus).mono _
      · cases List.mem_singleton.mp hnew
    · rw [hsentTags]
      exact nodup_concat_below h.replies.sent h.sentBelow
    · rw [hdelivered]
      exact h.replies.once
  · exact hqueued
  · exact hwaiting
  · intro e command hcommand
    rw [hconns] at hcommand
    rw [hsent, hdelivered]
    rcases conns_update hcommand with ⟨_, heq⟩ | ⟨_, hold⟩
    · cases heq
      exact ⟨Nat.lt_succ_self _, fun hmem => absurd (h.deliveredBelow _ hmem) (lt_irrefl _)⟩
    · obtain ⟨hlt, hnot⟩ := h.fresh e command hold
      exact ⟨Nat.lt_succ_of_lt hlt, hnot⟩
  · intro e d command command' he hd htag
    rw [hconns] at he hd
    rcases conns_update he with ⟨rfl, heq⟩ | ⟨_, hold⟩
    · cases heq
      rcases conns_update hd with ⟨rfl, _⟩ | ⟨_, hold'⟩
      · rfl
      · exact absurd (h.fresh d command' hold').1 (by rw [← htag]; exact lt_irrefl _)
    · rcases conns_update hd with ⟨rfl, heq'⟩ | ⟨_, hold'⟩
      · cases heq'
        exact absurd (h.fresh e command hold).1 (by rw [htag]; exact lt_irrefl _)
      · exact h.apart e d command command' hold hold' htag
  · rw [hsentTags, hsent]
    intro tag htag
    rcases List.mem_append.mp htag with hold | hnew
    · exact Nat.lt_succ_of_lt (h.sentBelow tag hold)
    · rw [List.mem_singleton.mp hnew]
      exact Nat.lt_succ_self _
  · rw [hdelivered, hsent]
    exact fun tag htag => Nat.lt_succ_of_lt (h.deliveredBelow tag htag)

/-- A request waits for a reply on a connection without a command, as its own was not sent. -/
theorem Traced.unsent {s s' : State P N} (h : Traced s) (hlog : s'.log = s.log) (hconns : s'.conns = s.conns)
    (hsent : s'.sent = s.sent)
    (hqueued : ∀ i ∈ s'.queue.contents, .received (s'.client i) (s'.pool i).buffer ∈ s'.log)
    (hwaiting : ∀ p ∈ s'.pending, p.op = .dbRead → ∀ e, (s'.pool p.slot).dbconn = some e →
      ∀ command, s'.conns e = some command →
        SentFor s'.log (s'.client p.slot) (s'.pool p.slot).buffer command) : Traced s' := by
  obtain ⟨⟨hown, htags, honce⟩, _, _, hfresh, hapart, hsentBelow, hdeliveredBelow⟩ := h
  rw [← hlog] at hown htags honce hsentBelow hdeliveredBelow
  rw [← hsent] at hsentBelow hdeliveredBelow
  refine ⟨⟨hown, htags, honce⟩, hqueued, hwaiting, ?_, ?_, hsentBelow, hdeliveredBelow⟩
  · rw [hconns, hsent, hlog]
    exact hfresh
  · rw [hconns]
    exact hapart

theorem Traced.sendTurn {s : State P N} {queue : Queue (Fin P)} {i : Fin P} {c : Fin N} {query : Query}
    (h : Traced s) (hs : Consistent s []) (hcons : s.queue.contents = i :: queue.contents)
    (hzero : s.awaiting c = 0) (hidle : s.conns c = none) (hquery : queryOf (s.pool i).buffer = some query)
    (o : Outcome) : Traced (s.sendTurn queue i c query o) := by
  obtain ⟨hqueue, hpending⟩ := head_elsewhere hs hcons
  have hpool : ∀ j, j ≠ i → (s.sendTurn queue i c query o).pool j = s.pool j :=
    fun j => s.sendTurn_ne queue c query o
  have hself : ((s.sendTurn queue i c query o).pool i).dbconn = some c ∧
      ((s.sendTurn queue i c query o).pool i).buffer = (s.pool i).buffer := by
    rw [State.sendTurn_self]
    exact ⟨rfl, rfl⟩
  have hreceived : .received (s.client i) (s.pool i).buffer ∈ s.log :=
    h.queued i (by rw [hcons]; exact List.mem_cons_self ..)
  have hrest : ∀ j ∈ queue.contents, .received (s.client j) ((s.sendTurn queue i c query o).pool j).buffer ∈
      s.log := by
    intro j hj
    rw [hpool j (hqueue j hj)]
    exact h.queued j (by rw [hcons]; exact List.mem_cons_of_mem i hj)
  by_cases hsends : s.Sends c o
  · have hlog : (s.sendTurn queue i c query o).log = s.log ++ [.sent (s.client i) s.sent query] := if_pos hsends
    have hconns : (s.sendTurn queue i c query o).conns =
        Function.update s.conns c (some ⟨s.sent, query, o.results⟩) := if_pos hsends
    refine h.sent hlog hconns (if_pos hsends) (fun j hj => ?_) fun p hp hop e hconn command hcommand => ?_
    · rw [hlog]
      exact List.mem_append_left _ (hrest j hj)
    · rw [hconns] at hcommand
      rw [hlog]
      rcases List.mem_append.mp hp with hin | hnew
      · rw [hpool p.slot (hpending p hin)] at hconn ⊢
        rcases conns_update hcommand with ⟨rfl, _⟩ | ⟨_, hold⟩
        · exact absurd hconn (not_awaited hzero hin hop)
        · exact (h.waiting p hin hop e hconn command hold).mono _
      · cases List.mem_singleton.mp hnew
        rw [hself.1] at hconn
        cases hconn
        rw [Function.update_self] at hcommand
        cases hcommand
        rw [hself.2]
        exact ⟨List.mem_append_left _ hreceived, hquery, List.mem_append_right _ (List.mem_singleton_self _)⟩
  · have hlog : (s.sendTurn queue i c query o).log = s.log := if_neg hsends
    have hconns : (s.sendTurn queue i c query o).conns = s.conns := if_neg hsends
    refine h.unsent hlog hconns (if_neg hsends) (fun j hj => ?_) fun p hp hop e hconn command hcommand => ?_
    · rw [hlog]
      exact hrest j hj
    · rw [hconns] at hcommand
      rw [hlog]
      rcases List.mem_append.mp hp with hin | hnew
      · rw [hpool p.slot (hpending p hin)] at hconn ⊢
        exact h.waiting p hin hop e hconn command hcommand
      · cases List.mem_singleton.mp hnew
        rw [hself.1] at hconn
        cases hconn
        rw [hidle] at hcommand
        cases hcommand

theorem traced_kept :
    KeptByTurns fun (hand : Option (Fin N)) (s : State P N) => InHand hand s ∧ Traced s := by
  constructor
  · intro c s queue h hnil hnil'
    refine ⟨inHand_kept.empty c s queue h.1 hnil hnil', ?_⟩
    refine h.2.same rfl rfl (fun _ _ => id) ?_ fun p hp _ => ⟨hp, rfl, rfl⟩
    rw [hnil']
    nofun
  · intro c s queue i response hs h hcons hq hnone hr
    exact ⟨inHand_kept.refuse c s queue i response hs h.1 hcons hq hnone hr, h.2.refuseTurn hs hcons hr⟩
  · intro c s queue i query o hs h hcons hq hquery
    exact ⟨inHand_kept.send c s queue i query o hs h.1 hcons hq hquery,
      (h.2.sendTurn hs hcons (h.1.unawaited c rfl) (h.1.idle c rfl) hquery o).getDbconn⟩

/-- What a run of clean turns keeps. -/
structure Sound (s : State P N) : Prop where
  exclusive : ∀ c, Exclusive s c
  traced : Traced s

theorem sound_dispatch {s s' : State P N} (hs : Consistent s []) (h : Sound s)
    (hclean : cleanPass s.free s.commands = true) {outcomes : Nat → Outcome}
    (hd : s.queuDispatch outcomes = .ok s') : Sound s' := by
  have hrelease : ∀ (c : Fin N) (t : State P N), InHand (some c) t ∧ Traced t → Sound (t.setUsed c false) := by
    rintro c t ⟨hin, htraced⟩
    refine ⟨hin.release, ?_⟩
    exact htraced.same rfl rfl (fun _ _ => id) htraced.queued
      fun p hp _ => ⟨hp, rfl, rfl⟩
  exact queuDispatch_keeps traced_kept (fun t ht => ⟨fun d => ht.1.others d nofun, ht.2⟩) hrelease hs
    ⟨inHand_getDbconn h.exclusive hclean, h.traced.getDbconn⟩ hd

/-! ### A completion -/

theorem Traced.completed {s : State P N} {k : Nat} {p : Pending P} (h : Traced s) (hp : s.pending[k]? = some p) :
    Traced (s.completed k) ∧ (p.op = .dbRead → ∀ c, (s.pool p.slot).dbconn = some c →
      ∀ command, s.conns c = some command →
        SentFor s.log (s.client p.slot) (s.pool p.slot).buffer command) := by
  refine ⟨?_, fun hop => h.waiting p (List.mem_of_getElem? hp) hop⟩
  exact h.same rfl rfl (fun _ _ => id) h.queued
    fun q hq _ => ⟨List.mem_of_mem_eraseIdx hq, rfl, rfl⟩

theorem delivered_other {client : Nat} {buffer : List UInt8} {source : PGconn}
    (h : status buffer ≠ bytes "200") : delivered [.wrote client buffer source] = [] := by
  cases source with
  | none => rfl
  | some command => simp [delivered, h]

theorem pqGetResult_some {conn : PGconn} {result : PGresult} (h : (pqGetResult conn).1 = some result) :
    ∃ command, conn = some command ∧ command.results.head? = some result := by
  match conn, h with
  | some ⟨tag, query, res :: rest⟩, h => exact ⟨_, rfl, h⟩

/-- A reply is given, or a failure is reported, and the connection is idle. -/
theorem Traced.replied {s s' : State P N} {i : Fin P} {d : Fin N} {r : ReqRes (Fin N)} (h : Traced s)
    (hreported : Reported (s.pool i) (pqGetResult (s.conns d)).1 r)
    (hfor : ∀ command, s.conns d = some command → SentFor s.log (s.client i) (s.pool i).buffer command)
    (hlog : s'.log = s.log ++ [.wrote (s.client i) r.buffer (s.conns d)])
    (hconns : s'.conns = Function.update s.conns d none) (hsent : s'.sent = s.sent)
    (hqueued : ∀ j ∈ s'.queue.contents, .received (s'.client j) (s'.pool j).buffer ∈ s.log)
    (hpending : ∀ p ∈ s'.pending, p.op = .dbRead →
      p ∈ s.pending ∧ s'.pool p.slot = s.pool p.slot ∧ s'.client p.slot = s.client p.slot) : Traced s' := by
  have hother : ∀ e command, s'.conns e = some command → e ≠ d ∧ s.conns e = some command := by
    intro e command he
    rw [hconns] at he
    exact (conns_update he).resolve_left fun heq => nomatch heq.2
  have hqueued' : ∀ j ∈ s'.queue.contents, .received (s'.client j) (s'.pool j).buffer ∈ s'.log := by
    intro j hj
    rw [hlog]
    exact List.mem_append_left _ (hqueued j hj)
  cases hreported with
  | @failed response hr hstatus =>
    have hne : status ((s.pool i).setStaticResponse response).buffer ≠ bytes "200" := by
      rcases hstatus with heq | heq
      · rw [heq]; decide
      · rw [heq]; decide
    refine h.extend _ hlog rfl (delivered_other hne) (fun client buffer source hmem h200 => ?_) hsent
      (fun e command he => (hother e command he).2) hqueued' hpending
    cases List.mem_singleton.mp hmem
    exact absurd h200 hne
  | @value result hres ok hvalue =>
    obtain ⟨command, hcommand, hhead⟩ := pqGetResult_some hres
    have h200 : status ((s.pool i).okReply (replyText result)).buffer = bytes "200" := okReply_status _ _
    obtain ⟨hlt, hnot⟩ := h.fresh d command hcommand
    have hgiven : delivered [.wrote (s.client i) ((s.pool i).okReply (replyText result)).buffer (s.conns d)] =
        [command.tag] := by
      rw [hcommand]
      simp [delivered, h200]
    refine h.deliver _ hlog rfl hsent (fun client buffer source hmem _ => ?_) ?_ ?_ (fun e command' he => ?_)
      hqueued' hpending
    · cases List.mem_singleton.mp hmem
      refine .inr ⟨_, command, result, hcommand, ?_, hhead, ok, hvalue, rfl⟩
      rw [hlog]
      exact (hfor command hcommand).mono _
    · rw [hgiven]
      refine List.nodup_append.mpr ⟨h.replies.once, List.nodup_singleton _, fun m hm k hk heq => ?_⟩
      rw [List.mem_singleton.mp hk] at heq
      exact hnot (heq ▸ hm)
    · rw [hgiven]
      intro tag htag
      rw [List.mem_singleton.mp htag]
      exact hlt
    · obtain ⟨hed, hold⟩ := hother e command' he
      refine ⟨hold, fun hmem => hed ?_⟩
      rw [hgiven] at hmem
      exact h.apart e d command' command hold hcommand (List.mem_singleton.mp hmem)

/-- A completion gives a reply only to the request its command was sent for. -/
theorem traced_handled {s s' : State P N} {c : Completion} {p : Pending P} (hc : Consistent s [p.slot])
    (h : Traced s)
    (hsent : p.op = .dbRead → ∀ d, (s.pool p.slot).dbconn = some d → ∀ command, s.conns d = some command →
      SentFor s.log (s.client p.slot) (s.pool p.slot).buffer command)
    (hwait : p.op = .dbRead → 0 ≤ c.result → waitDb c.polls = .ok (-1) →
      ∀ d ∈ (s.pool p.slot).dbconn, s.conns d = none)
    (hs : Handled s c p s') : Traced s' := by
  have hpending : (∀ q ∈ s.pending, s'.client q.slot = s.client q.slot) → ∀ q ∈ s'.pending, q.op = .dbRead →
      q ∈ s.pending ∧ s'.pool q.slot = s.pool q.slot ∧ s'.client q.slot = s.client q.slot := by
    intro hclient q hq hop
    obtain ⟨extra, heq, hextra, hpool⟩ := handled_pending hc hs
    rw [heq] at hq
    have hold := (List.mem_append.mp hq).resolve_right fun hnew => hextra q hnew hop
    exact ⟨hold, hpool q hold, hclient q hold⟩
  have hqueued : ∀ r : ReqRes (Fin N), ∀ i ∈ s.queue.contents,
      .received (s.client i) (Function.update s.pool p.slot r i).buffer ∈ s.log := by
    intro r i hi
    rw [Function.update_of_ne (hc.not_queued hi)]
    exact h.queued i hi
  cases hs with
  | failed hresult => exact h
  | accepted j hop hresult hfree hne =>
    refine h.same rfl rfl (fun _ _ => id) (fun i hi => ?_)
      (hpending fun q hq => Function.update_of_ne (hc.not_pending hq) ..)
    have hij : i ≠ j := by
      rintro rfl
      rw [(hc.queued i hi).ring] at hfree
      cases hfree
    have hclient : Function.update s.client p.slot s.accepted i = s.client i :=
      Function.update_of_ne (hc.not_queued hi) ..
    have hpool : ∀ r r' : ReqRes (Fin N), Function.update (Function.update s.pool p.slot r) j r' i = s.pool i :=
      fun r r' => (Function.update_of_ne hij ..).trans (Function.update_of_ne (hc.not_queued hi) ..)
    simp only [hclient, hpool]
    exact h.queued i hi
  | answered response r hop hresult hno hr hresponse =>
    refine h.extend [.received (s.client p.slot) (memcpy (s.pool p.slot).buffer c.data),
      .wrote (s.client p.slot) r.buffer none] (List.append_assoc ..) rfl rfl ?_ rfl (fun _ _ => id) ?_
        (hpending fun _ _ => rfl)
    · intro client buffer source hmem hstatus
      rcases List.mem_cons.mp hmem with heq | hmem
      · cases heq
      cases List.mem_singleton.mp hmem
      rcases hresponse with hrefusal | ⟨d, hd, huri⟩
      · obtain ⟨toExit, rfl⟩ := hr
        obtain ⟨hlen, hcode⟩ := hrefusal.code
        rw [ReqRes.setStaticResponse, status_memcpy hlen] at hstatus
        exact absurd hstatus hcode
      · refine .inl ⟨_, d, rfl, ?_, hd, huri⟩
        rw [State.afterRead_buffer]
        exact List.mem_append_left _ (List.mem_append_right _ (List.mem_singleton_self _))
    · exact fun i hi => List.mem_append_left _ (List.mem_append_left _ (hqueued _ i hi))
  | queued queue r hop hresult hbuffer hr hpush =>
    refine h.extend [.received (s.client p.slot) (memcpy (s.pool p.slot).buffer c.data)] rfl rfl rfl
      (fun client buffer source hmem _ => ?_) rfl (fun _ _ => id) (fun i hi => ?_) (hpending fun _ _ => rfl)
    · cases List.mem_singleton.mp hmem
    · obtain ⟨queue', _, hpush', hsub, _⟩ := push_contents hc.sound p.slot
      rw [hpush] at hpush'
      cases hpush'
      rcases List.mem_append.mp (hsub.subset hi) with hold | hnew
      · exact List.mem_append_left _ (hqueued r i hold)
      · rw [List.mem_singleton.mp hnew]
        show Obs.received (s.client p.slot) (Function.update s.pool p.slot r p.slot).buffer ∈ _
        rw [Function.update_self, hbuffer, State.afterRead_buffer]
        exact List.mem_append_right _ (List.mem_singleton_self _)
  | replied d conn r handler hop hresult hhandler hdbconn hcall =>
    have hconn : conn = none := by
      rcases handler_cases hcall with ⟨hfail, rfl, _⟩ | ⟨_, rfl, _⟩
      · exact hwait hop hresult hfail d hdbconn
      · rfl
    have hreported : Reported (s.pool p.slot) (pqGetResult (s.conns d)).1 r := by
      rcases handler_cases hcall with ⟨hfail, _, hrep⟩ | ⟨_, _, hrep⟩
      · rw [hwait hop hresult hfail d hdbconn]
        exact hrep
      · exact hrep
    subst hconn
    exact h.replied hreported (hsent hop d hdbconn) rfl rfl rfl (hqueued _) (hpending fun _ _ => rfl)
  | written hop hresult =>
    exact h.same rfl rfl (fun _ _ => id)
      (hqueued _) (hpending fun _ _ => rfl)
  | closed hop hresult =>
    exact h.same rfl rfl (fun _ _ => id)
      (hqueued _) (hpending fun _ _ => rfl)

/-! ### Every run -/

theorem sound_handle {s s' : State P N} {c : Completion} (hs : Consistent s []) (h : Sound s)
    (hwait : WaitSucceeds s c) (ht : s.handle c = .ok s') : Consistent s' [] ∧ Sound s' := by
  obtain ⟨p, hp, _, hcompleted, hhandled, hcons⟩ := handle_cases hs ht
  obtain ⟨htraced, hsent⟩ := h.traced.completed hp
  refine ⟨hcons, fun d => ?_, traced_handled hcompleted htraced hsent (hwait p hp) hhandled⟩
  exact exclusive_handled hcompleted (fun d => (exclusive_completed hp (h.exclusive d)).1)
    (fun d => (exclusive_completed hp (h.exclusive d)).2) (hwait p hp) hhandled d

theorem sound_step {s s' : State P N} {input : Input} (h : Consistent s [] ∧ Sound s)
    (hC : CleanTurn s input) (hs : s.step input = .ok s') : Consistent s' [] ∧ Sound s' := by
  refine ⟨consistent_step h.1 hs, ?_⟩
  rcases step_cases hs with ⟨c, outcomes, t, rfl, ht, hd⟩ | ⟨outcomes, rfl, hd⟩
  · obtain ⟨htcons, htsound⟩ := sound_handle h.1 h.2 hC.1 ht
    refine sound_dispatch htcons htsound (hC.2 t ?_) hd
    rw [ht]
    rfl
  · exact sound_dispatch h.1 h.2 hC hd

theorem sound_start {s : State P N} (hs : (State.start : Except Stop (State P N)) = .ok s) : Sound s := by
  obtain ⟨i, t, outcomes, rfl, ht, hd⟩ := start_cases hs
  refine sound_dispatch ht ⟨fun c => ⟨Nat.zero_le 1, fun _ => rfl, fun _ => rfl⟩, ?_⟩ (cleanPass_nil _) hd
  refine ⟨⟨nofun, List.nodup_nil, List.nodup_nil⟩, nofun, fun p hp hop => ?_, nofun, nofun, nofun, nofun⟩
  cases List.mem_singleton.mp hp
  cases hop

/-- **Every response is the client's own in every run of clean turns.** -/
theorem provenance_of_cleanTurns {s : State P N} (hs : (State.start : Except Stop (State P N)) = .ok s)
    (inputs : List Input) (h : EachStep State.step CleanTurn s inputs) :
    Throughout State.step Provenance s inputs :=
  (throughout_of_steps (I := fun s => (Consistent s [] ∧ Numbered s) ∧ Sound s)
    (fun _ _ _ h hC ht => ⟨numbered_step h.1 ht, (sound_step ⟨h.1.1, h.2⟩ hC ht).2⟩)
    ⟨⟨consistent_start hs, numbered_start hs⟩, sound_start hs⟩ h).mono
      fun _ h => ⟨h.2.traced.replies, h.1.2.one⟩

/-! ### A reply for another client -/

def requestsOf (log : List Obs) (client : Nat) : List (List UInt8) :=
  log.filterMap fun
    | .received c request => if c = client then some request else none
    | _ => none

def repliesTo (log : List Obs) (client : Nat) : List (List UInt8 × Command) :=
  log.filterMap fun
    | .wrote c buffer (some command) => if c = client then some (buffer, command) else none
    | _ => none

theorem mem_requestsOf {log : List Obs} {client : Nat} {request : List UInt8}
    (h : .received client request ∈ log) : request ∈ requestsOf log client :=
  List.mem_filterMap.mpr ⟨_, h, if_pos rfl⟩

theorem mem_repliesTo {log : List Obs} {client : Nat} {buffer : List UInt8} {command : Command}
    (h : (buffer, command) ∈ repliesTo log client) : .wrote client buffer (some command) ∈ log := by
  obtain ⟨o, ho, heq⟩ := List.mem_filterMap.mp h
  split at heq
  · split at heq
    · rename_i hclient
      cases heq
      exact hclient ▸ ho
    · cases heq
  · cases heq

def getExtratoOf (id : String) : List UInt8 := bytes "GET /clientes/" ++ bytes id ++ bytes "/extrato HTTP/1.1\r\n\r\n"

/-- Behind the request that has the one connection, `postNothing` and those of the
clients 2 and 3 are queued; and the reply for the last comes first. -/
def behindRefusedTwice : List Input :=
  [done 0 5 [], done 0 36 (getExtratoOf "1"), done 0 6 [], done 1 40 postNothing, done 1 7 [],
    done 1 36 (getExtratoOf "2"), done 1 8 [], done 1 36 (getExtratoOf "3"), done 0 0 [], done 4 0 []]

/-- The last client gets the reply to the command of the one before. -/
theorem reply_of_another :
    ∃ s t : State 5 1, State.start = .ok s ∧ run State.step s behindRefusedTwice = .ok t ∧
      (∃ buffer command, .wrote 3 buffer (some command) ∈ t.log ∧ status buffer = bytes "200" ∧
        command.query = .getExtrato 2) ∧
      (∀ request, .received 3 request ∈ t.log → queryOf request = some (.getExtrato 3)) ∧
      ¬ Throughout State.step Provenance s behindRefusedTwice := by
  obtain ⟨s, t, hs, ht, hlog⟩ := exists_run_ok State.step (State.start : Except Stop (State 5 1))
    behindRefusedTwice
    (fun t => ((repliesTo t.log 3).map fun reply => (status reply.1, reply.2.query),
      (requestsOf t.log 3).map queryOf))
    ([(bytes "200", .getExtrato 2)], [some (.getExtrato 3)]) (by decide +kernel)
  obtain ⟨hreplies, hrequests⟩ := Prod.mk.inj hlog
  have hrequest : ∀ request, .received 3 request ∈ t.log → queryOf request = some (.getExtrato 3) := by
    intro request hmem
    have hquery := List.mem_map_of_mem (f := queryOf) (mem_requestsOf hmem)
    rw [hrequests] at hquery
    exact List.mem_singleton.mp hquery
  obtain ⟨⟨buffer, command⟩, hmem, heq⟩ :=
    List.mem_map.mp (hreplies ▸ List.mem_singleton_self (bytes "200", Query.getExtrato 2))
  obtain ⟨hstatus, hquery⟩ := Prod.mk.inj heq
  have hwrote := mem_repliesTo hmem
  refine ⟨s, t, hs, ht, ⟨buffer, command, hwrote, hstatus, hquery⟩, hrequest, fun h => ?_⟩
  rcases (h.last ht).own 3 buffer _ hwrote hstatus with
    ⟨_, _, hsource, _⟩ | ⟨request, command', _, hsource, hsent, _⟩
  · cases hsource
  · cases hsource
    have hown := hsent.2.1
    rw [hrequest request hsent.1, hquery] at hown
    cases hown

theorem provenance_extratoClient :
    ∃ s : State 2 1, State.start = .ok s ∧ (run State.step s extratoClient).isOk = true ∧
      Throughout State.step Provenance s extratoClient := by
  obtain ⟨s, hs, hrun⟩ := exists_of_map_ok (x := (State.start : Except Stop (State 2 1)))
    (f := fun s => (decide (EachStep State.step CleanTurn s extratoClient), (run State.step s extratoClient).isOk))
    (b := (true, true)) (by decide +kernel)
  obtain ⟨hC, hok⟩ := Prod.mk.inj hrun
  exact ⟨s, hs, hok, provenance_of_cleanTurns hs extratoClient (of_decide_eq_true hC)⟩

end Rinha.Server
