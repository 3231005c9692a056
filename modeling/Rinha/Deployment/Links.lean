import Rinha.Deployment.System

/-! How the servers and the database hang together.

The stage of a connection says how far the database is with the command that is in
progress there (`Link`): its call is the session's call while it runs, and has
returned once, with the result that is to be read, when it does not. A turn of a
server and a step of the database each keep this (`linked_step`). -/
namespace Rinha.Deployment
open Library Client Server Database

variable {K P N : Nat}

section Links
variable (decode : List UInt8 → Option (List Char)) (extratoJson : Extrato → List UInt8)

/-- The command's call has returned, with this result. -/
def Executed (sys : System K P N) (k : Fin K) (command : Command) (result : PGresult) : Prop :=
  ∃ x ∈ sys.executed, x.server = k ∧ x.tag = command.tag ∧ call decode command.query = .ok x.entry.sqlCall ∧
    x.entry.result extratoJson = result

/-- It has not. -/
def Unexecuted (sys : System K P N) (k : Fin K) (tag : Nat) : Prop :=
  ∀ x ∈ sys.executed, ¬ (x.server = k ∧ x.tag = tag)

/-- What a connection's stage says of the session and of the command in progress. -/
def Link (sys : System K P N) (s : Session K N) : Stage → Prop
  | .waiting => (sys.db.phase s).sqlCall = none ∧
      ∀ command, sys.command s = some command → Unexecuted sys s.1 command.tag
  | .running => ∃ command sqlCall, sys.command s = some command ∧ Unexecuted sys s.1 command.tag ∧
      (sys.db.phase s).sqlCall = some sqlCall ∧ call decode command.query = .ok sqlCall
  | .returned result => (sys.db.phase s).sqlCall = none ∧
      ∀ command, sys.command s = some command → Executed decode extratoJson sys s.1 command result

/-- The commands of an instance that are in progress were sent, and their replies are
still to be read; the 200s with a reply have that of a call that returned. -/
structure Instance (sys : System K P N) (k : Fin K) : Prop where
  consistent : Consistent (sys.servers k) []
  talks : Talks (sys.servers k)
  tagged : Tagged (sys.servers k)
  sent : ∀ c command, (sys.servers k).conns c = some command →
    ∃ client, .sent client command.tag command.query ∈ (sys.servers k).log
  fresh : ∀ c command, (sys.servers k).conns c = some command → command.tag ∉ delivered (sys.servers k).log
  once : (delivered (sys.servers k).log).Nodup
  below : ∀ tag ∈ delivered (sys.servers k).log, tag < (sys.servers k).sent
  answered : ∀ client buffer command, .wrote client buffer (some command) ∈ (sys.servers k).log →
    status buffer = bytes "200" → GivesReply buffer command ∧
      ∃ result, command.results = [result] ∧ Executed decode extratoJson sys k command result

/-- The call that has returned is of a command that its instance sent. -/
def Requested (sys : System K P N) (x : Execution K N) : Prop :=
  x.tag < (sys.servers x.server).sent ∧ ∃ client query, .sent client x.tag query ∈ (sys.servers x.server).log ∧
    call decode query = .ok x.entry.sqlCall

structure Linked (sys : System K P N) : Prop where
  locks : Locks sys.db
  prepared : AllPrepared sys.db
  replays : Replays Alone Database.seeded sys.db.history sys.db.tables
  entries : sys.executed.map Execution.entry = sys.db.history
  once : (sys.executed.map fun x => (x.server, x.tag)).Nodup
  link : ∀ s, Link decode extratoJson sys s (sys.stage s)
  instances : ∀ k, Instance decode extratoJson sys k
  requested : ∀ x ∈ sys.executed, Requested decode sys x

end Links

variable {decode : List UInt8 → Option (List Char)} {extratoJson : Extrato → List UInt8}

/-! ### What is read -/

theorem reads_conns {s : State P N} {input : Input} {d : Fin N} {command : Command}
    (h : s.reads input = some (d, command)) : s.conns d = some command := by
  cases input with
  | completes c outcomes =>
    simp only [State.reads] at h
    split at h
    · cases h
    · split at h
      · split at h
        · cases h
        · obtain ⟨command', hcommand, heq⟩ := Option.map_eq_some_iff.mp h
          cases heq
          exact hcommand
      · cases h
  | interrupted outcomes => cases h
  | fails => cases h

/-- A reply that is ready is an error, or what the call has returned. -/
theorem ready_cases {sys : System K P N} {k : Fin K} {d : Fin N} {command : Command}
    (h : sys.Ready decode k (some (d, command))) :
    ((∃ e, call decode command.query = .error e) ∧ command.results = [raised]) ∨
      ∃ result, sys.stage (k, d) = .returned result ∧ command.results = [result] := by
  simp only [System.Ready] at h
  cases hcall : call decode command.query with
  | error e =>
    rw [hcall] at h
    exact .inl ⟨⟨e, rfl⟩, h⟩
  | ok sqlCall =>
    rw [hcall] at h
    cases hstage : sys.stage (k, d) with
    | waiting =>
      rw [hstage] at h
      cases h
    | running =>
      rw [hstage] at h
      cases h
    | returned result =>
      rw [hstage] at h
      exact .inr ⟨result, rfl, h⟩

/-- The error of a command that is no call is no reply for a 200. -/
theorem not_givesReply_raised {buffer : List UInt8} {command : Command} (h : command.results = [raised]) :
    ¬ GivesReply buffer command := by
  intro hgives
  obtain ⟨_, result, hhead, hok, _⟩ := hgives
  rw [h] at hhead
  cases hhead
  cases hok

/-- A call that runs has nothing to be read. -/
theorem not_ready_running {sys : System K P N} {k : Fin K} {d : Fin N} {command : Command} {sqlCall : SqlCall}
    (hstage : sys.stage (k, d) = .running) (hcall : call decode command.query = .ok sqlCall) :
    ¬ sys.Ready decode k (some (d, command)) := by
  intro h
  rcases ready_cases h with ⟨⟨e, heq⟩, _⟩ | ⟨result, heq, _⟩
  · rw [hcall] at heq
    cases heq
  · rw [hstage] at heq
    cases heq

/-! ### A turn of a server -/

section Serve
variable {sys : System K P N} {k : Fin K} {s : State P N}

theorem serve_self : (sys.serve k s).servers k = s := Function.update_self ..

theorem serve_ne {k' : Fin K} (h : k' ≠ k) : (sys.serve k s).servers k' = sys.servers k' := Function.update_of_ne h ..

theorem serve_stage_ne {session : Session K N} (h : session.1 ≠ k) :
    (sys.serve k s).stage session = sys.stage session := if_neg fun hnew => h hnew.1

/-- A command that was in progress before the turn is no new one. -/
theorem link_serve (h : Linked decode extratoJson sys) {reply : Option (Fin N × Command)}
    (hready : sys.Ready decode k reply) (hadv : Advances (sys.servers k) s reply) (c : Fin N) :
    Link decode extratoJson (sys.serve k s) (k, c) ((sys.serve k s).stage (k, c)) := by
  have hlink := h.link (k, c)
  have hcommand : (sys.serve k s).command (k, c) = s.conns c := congrFun (congrArg State.conns serve_self) c
  by_cases hnew : ∃ command ∈ s.conns c, (sys.servers k).sent ≤ command.tag
  · have hstage : (sys.serve k s).stage (k, c) = .waiting := if_pos ⟨rfl, hnew⟩
    obtain ⟨command, hmem, hle⟩ := hnew
    rw [hstage]
    constructor
    · -- While a call runs, its command stays in progress.
      show (sys.db.phase (k, c)).sqlCall = none
      cases hold : sys.stage (k, c) with
      | waiting =>
        rw [hold] at hlink
        exact hlink.1
      | returned result =>
        rw [hold] at hlink
        exact hlink.1
      | running =>
        rw [hold] at hlink
        obtain ⟨command', sqlCall, hbefore, _, _, hcall⟩ := hlink
        have hkept := hadv.keeps c command' hbefore fun heq => not_ready_running hold hcall (heq ▸ hready)
        have hlt := (h.instances k).tagged.below c command' hbefore
        rw [Option.mem_def, hkept] at hmem
        cases hmem
        omega
    · intro command' hcommand' x hx hof
      rw [hcommand, Option.mem_def.mp hmem] at hcommand'
      cases hcommand'
      have hlt := (h.requested x hx).1
      rw [hof.1, hof.2] at hlt
      exact absurd hlt (not_lt.mpr hle)
  · have hstage : (sys.serve k s).stage (k, c) = sys.stage (k, c) := if_neg fun hnot => hnew hnot.2
    have hold : ∀ command, s.conns c = some command → (sys.servers k).conns c = some command := by
      intro command hc
      rcases hadv.conns c command hc with ⟨hold, _⟩ | ⟨hle, _⟩
      · exact hold
      · exact absurd ⟨command, hc, hle⟩ hnew
    rw [hstage]
    cases hstage' : sys.stage (k, c) with
    | waiting =>
      rw [hstage'] at hlink
      exact ⟨hlink.1, fun command hc => hlink.2 command (hold command (hcommand ▸ hc))⟩
    | returned result =>
      rw [hstage'] at hlink
      exact ⟨hlink.1, fun command hc => hlink.2 command (hold command (hcommand ▸ hc))⟩
    | running =>
      rw [hstage'] at hlink
      obtain ⟨command, sqlCall, hbefore, hun, hphase, hcall⟩ := hlink
      have hkept := hadv.keeps c command hbefore fun heq => not_ready_running hstage' hcall (heq ▸ hready)
      exact ⟨command, sqlCall, hcommand.trans hkept, hun, hphase, hcall⟩

/-- The one reply that the turn reads was still to be read. -/
theorem instance_serve (h : Linked decode extratoJson sys) {input : Input}
    (hready : sys.Ready decode k ((sys.servers k).reads input)) (hs : (sys.servers k).step input = .ok s) :
    Instance decode extratoJson (sys.serve k s) k := by
  have hk := h.instances k
  have hadv := advances_step hk.consistent hs
  have hread : ∀ {d command}, (sys.servers k).reads input = some (d, command) →
      (sys.servers k).conns d = some command := fun hreads => reads_conns hreads
  generalize (sys.servers k).reads input = reply at hready hadv hread
  obtain ⟨extra, hlog, hwrote, hdelivered⟩ := hadv.log
  have hgiven : ∀ tag ∈ delivered extra, ∃ d command, reply = some (d, command) ∧ command.tag = tag := by
    intro tag htag
    obtain ⟨⟨d, command⟩, hmem, rfl⟩ := List.mem_map.mp (hdelivered.subset htag)
    exact ⟨d, command, Option.mem_toList.mp hmem, rfl⟩
  have hfresh : ∀ tag ∈ delivered extra, tag < (sys.servers k).sent ∧ tag ∉ delivered (sys.servers k).log := by
    intro tag htag
    obtain ⟨d, command, hreply, rfl⟩ := hgiven tag htag
    exact ⟨hk.tagged.below d command (hread hreply), hk.fresh d command (hread hreply)⟩
  have hservers : (sys.serve k s).servers k = s := serve_self
  constructor
  · rw [hservers]
    exact consistent_step hk.consistent hs
  · rw [hservers]
    exact (talks_step ⟨hk.consistent, hk.talks⟩ hs).2
  · rw [hservers]
    exact hadv.tagged hk.tagged
  · rw [hservers]
    intro c command hc
    rcases hadv.conns c command hc with ⟨hold, _⟩ | ⟨_, _, hsent⟩
    · refine (hk.sent c command hold).imp fun client hsent => ?_
      rw [hlog]
      exact List.mem_append_left _ hsent
    · exact hsent
  · rw [hservers]
    intro c command hc hmem
    rw [hlog, delivered_append] at hmem
    rcases hadv.conns c command hc with ⟨hold, hreply⟩ | ⟨hle, _, _⟩
    · rcases List.mem_append.mp hmem with hmem | hmem
      · exact hk.fresh c command hold hmem
      · obtain ⟨d, command', heq, htag⟩ := hgiven _ hmem
        obtain rfl := hk.tagged.apart d c command' command (hread heq) hold htag
        rw [hread heq] at hold
        cases hold
        exact hreply heq
    · rcases List.mem_append.mp hmem with hmem | hmem
      · have := hk.below _ hmem
        omega
      · have := (hfresh _ hmem).1
        omega
  · rw [hservers, hlog, delivered_append]
    refine List.nodup_append.mpr ⟨hk.once, ?_, fun a ha b hb heq => (hfresh b hb).2 (heq ▸ ha)⟩
    refine hdelivered.nodup ?_
    cases reply with
    | none => exact List.nodup_nil
    | some r => exact List.nodup_singleton _
  · rw [hservers, hlog, delivered_append]
    intro tag htag
    rcases List.mem_append.mp htag with htag | htag
    · exact (hk.below tag htag).trans_le hadv.sent
    · exact (hfresh tag htag).1.trans_le hadv.sent
  · rw [hservers, hlog]
    intro client buffer command hmem hstatus
    rcases List.mem_append.mp hmem with hmem | hmem
    · exact hk.answered client buffer command hmem hstatus
    · obtain ⟨⟨d, hreply⟩, hgives⟩ := hwrote client buffer command hmem hstatus
      subst hreply
      refine ⟨hgives, ?_⟩
      rcases ready_cases hready with ⟨_, hraised⟩ | ⟨result, hstage, hresults⟩
      · exact absurd hgives (not_givesReply_raised hraised)
      · have hlink := h.link (k, d)
        rw [hstage] at hlink
        exact ⟨result, hresults, hlink.2 command (hread rfl)⟩

/-- The other instances are as they were. -/
theorem instance_serve_ne (h : Linked decode extratoJson sys) {k' : Fin K} (hne : k' ≠ k) :
    Instance decode extratoJson (sys.serve k s) k' := by
  obtain ⟨hcons, htalks, htagged, hsent, hfresh, honce, hbelow, hanswered⟩ := h.instances k'
  have hservers : (sys.serve k s).servers k' = sys.servers k' := serve_ne hne
  constructor
  · rw [hservers]; exact hcons
  · rw [hservers]; exact htalks
  · rw [hservers]; exact htagged
  · rw [hservers]; exact hsent
  · rw [hservers]; exact hfresh
  · rw [hservers]; exact honce
  · rw [hservers]; exact hbelow
  · rw [hservers]; exact hanswered

theorem requested_serve (h : Linked decode extratoJson sys) {reply : Option (Fin N × Command)}
    (hadv : Advances (sys.servers k) s reply) {x : Execution K N} (hx : x ∈ sys.executed) :
    Requested decode (sys.serve k s) x := by
  obtain ⟨hlt, client, query, hsent, hcall⟩ := h.requested x hx
  unfold Requested
  by_cases hserver : x.server = k
  · rw [hserver] at hlt hsent
    rw [hserver, serve_self]
    obtain ⟨extra, hlog, _⟩ := hadv.log
    refine ⟨hlt.trans_le hadv.sent, client, query, ?_, hcall⟩
    rw [hlog]
    exact List.mem_append_left _ hsent
  · rw [serve_ne hserver]
    exact ⟨hlt, client, query, hsent, hcall⟩

theorem linked_serve (h : Linked decode extratoJson sys) {input : Input}
    (hready : sys.Ready decode k ((sys.servers k).reads input)) (hs : (sys.servers k).step input = .ok s) :
    Linked decode extratoJson (sys.serve k s) where
  locks := h.locks
  prepared := h.prepared
  replays := h.replays
  entries := h.entries
  once := h.once
  link := by
    intro session
    obtain ⟨k', c⟩ := session
    by_cases hk : k' = k
    · rw [hk]
      exact link_serve h hready (advances_step (h.instances k).consistent hs) c
    · rw [serve_stage_ne hk]
      have hcommand : (sys.serve k s).command (k', c) = sys.command (k', c) :=
        congrFun (congrArg State.conns (serve_ne hk)) c
      have hlink := h.link (k', c)
      cases hstage : sys.stage (k', c) with
      | _ =>
        rw [hstage] at hlink
        simp only [Link, hcommand] at hlink ⊢
        exact hlink
  instances := by
    intro k'
    by_cases hk : k' = k
    · rw [hk]
      exact instance_serve h hready hs
    · exact instance_serve_ne h hk
  requested := fun _ hx => requested_serve h (advances_step (h.instances k).consistent hs) hx

end Serve

/-! ### A step of the database -/

section Advance
variable {sys : System K P N} {act : Act (Session K N)} {db : Db (Session K N)}

/-- Where the call in progress and the command are the same, so is the link. -/
theorem Link.congr {sys' : System K P N} {session : Session K N} {stage : Stage}
    (h : Link decode extratoJson sys session stage)
    (hphase : (sys'.db.phase session).sqlCall = (sys.db.phase session).sqlCall)
    (hservers : sys'.servers = sys.servers) (hexecuted : sys'.executed = sys.executed) :
    Link decode extratoJson sys' session stage := by
  have hcommand : sys'.command session = sys.command session := by
    unfold System.command
    rw [hservers]
  cases stage with
  | _ =>
    simp only [Link, hphase, hcommand, Unexecuted, Executed, hexecuted] at h ⊢
    exact h

theorem Executed.mono {sys' : System K P N} {k : Fin K} {command : Command} {result : PGresult}
    (h : Executed decode extratoJson sys k command result) {more : List (Execution K N)}
    (hexecuted : sys'.executed = sys.executed ++ more) : Executed decode extratoJson sys' k command result := by
  obtain ⟨x, hx, hrest⟩ := h
  refine ⟨x, ?_, hrest⟩
  rw [hexecuted]
  exact List.mem_append_left _ hx

theorem Instance.mono {sys' : System K P N} {k : Fin K} (h : Instance decode extratoJson sys k)
    (hservers : sys'.servers = sys.servers) {more : List (Execution K N)}
    (hexecuted : sys'.executed = sys.executed ++ more) : Instance decode extratoJson sys' k := by
  obtain ⟨hcons, htalks, htagged, hsent, hfresh, honce, hbelow, hanswered⟩ := h
  rw [← hservers] at hcons htalks htagged hsent hfresh honce hbelow hanswered
  refine ⟨hcons, htalks, htagged, hsent, hfresh, honce, hbelow, fun client buffer command hmem hstatus => ?_⟩
  refine (hanswered client buffer command hmem hstatus).imp_right fun hdone => ?_
  exact hdone.imp fun result hresult => ⟨hresult.1, hresult.2.mono hexecuted⟩

theorem Requested.congr {sys' : System K P N} {x : Execution K N} (h : Requested decode sys x)
    (hservers : sys'.servers = sys.servers) : Requested decode sys' x := by
  unfold Requested at h ⊢
  rw [hservers]
  exact h

theorem returned_none (h : db.history = sys.db.history) : System.returned sys.db db = none := by
  unfold System.returned
  rw [h]
  exact List.getElem?_eq_none le_rfl

theorem returned_some {e : Entry (Session K N)} (h : db.history = sys.db.history ++ [e]) :
    System.returned sys.db db = some e := by
  unfold System.returned
  rw [h, List.getElem?_append_right le_rfl, Nat.sub_self]
  rfl

/-- The database goes on, and what it keeps is kept. -/
theorem linked_database (h : Linked decode extratoJson sys) (hs : sys.db.step act = .ok db) :
    Locks db ∧ AllPrepared db ∧ Replays Alone Database.seeded db.history db.tables := by
  have hpoint := step_atPoint h.locks h.prepared hs
  exact ⟨(step_effect h.locks hs).1, hpoint.prepared, h.replays.adds hpoint.adds⟩

/-- No call is made and none returns. -/
theorem linked_goesOn (h : Linked decode extratoJson sys) (hs : sys.db.step act = .ok db)
    (of : act.callOf = none) (calls : ∀ s, (db.phase s).sqlCall = (sys.db.phase s).sqlCall)
    (history : db.history = sys.db.history) : Linked decode extratoJson (sys.advance extratoJson act db) := by
  have heq : sys.advance extratoJson act db = {sys with db := db} := by
    unfold System.advance
    rw [of, returned_none history]
  obtain ⟨hlocks, hprepared, hreplays⟩ := linked_database h hs
  rw [heq]
  refine ⟨hlocks, hprepared, hreplays, ?_, h.once, fun s => ?_, fun k => ?_, fun x hx => ?_⟩
  · exact h.entries.trans history.symm
  · exact (h.link s).congr (calls s) rfl rfl
  · exact (h.instances k).mono rfl (List.append_nil _).symm
  · exact (h.requested x hx).congr rfl

/-- A session is given the call of its command. -/
theorem linked_begins (h : Linked decode extratoJson sys) (hcalls : sys.Calls decode act)
    (hs : sys.db.step act = .ok db) {s : Session K N} (of : act.callOf = some s)
    (begun : (db.phase s).sqlCall = act.sqlCall)
    (others : ∀ s', s' ≠ s → (db.phase s').sqlCall = (sys.db.phase s').sqlCall)
    (history : db.history = sys.db.history) : Linked decode extratoJson (sys.advance extratoJson act db) := by
  have heq : sys.advance extratoJson act db = {sys with db := db, stage := Function.update sys.stage s .running} := by
    unfold System.advance
    rw [of]
  obtain ⟨hstage, command, hcommand, hcall⟩ := hcalls s of
  obtain ⟨sqlCall, hsqlCall⟩ : ∃ sqlCall, act.sqlCall = some sqlCall := by
    cases act with
    | call s f a => exact ⟨_, rfl⟩
    | callExtrato s id => exact ⟨_, rfl⟩
    | _ => cases of
  have hok : call decode command.query = .ok sqlCall := by
    rw [hsqlCall] at hcall
    cases hquery : call decode command.query with
    | error e =>
      rw [hquery] at hcall
      cases hcall
    | ok c =>
      rw [hquery] at hcall
      cases hcall
      rfl
  obtain ⟨hlocks, hprepared, hreplays⟩ := linked_database h hs
  rw [heq]
  refine ⟨hlocks, hprepared, hreplays, ?_, h.once, fun s' => ?_, fun k => ?_, fun x hx => ?_⟩
  · exact h.entries.trans history.symm
  · dsimp only
    by_cases hs' : s' = s
    · subst hs'
      have hlink := h.link s'
      rw [hstage] at hlink
      rw [Function.update_self]
      exact ⟨command, sqlCall, hcommand, hlink.2 command hcommand, begun.trans hsqlCall, hok⟩
    · rw [Function.update_of_ne hs']
      exact (h.link s').congr (others s' hs') rfl rfl
  · exact (h.instances k).mono rfl (List.append_nil _).symm
  · exact (h.requested x hx).congr rfl

/-- The call of a command returns. -/
theorem linked_returns (h : Linked decode extratoJson sys) (hs : sys.db.step act = .ok db)
    {e : Entry (Session K N)} (of : act.callOf = none)
    (hcall : (sys.db.phase e.session).sqlCall = some e.sqlCall) (idle : db.phase e.session = .idle)
    (others : ∀ s', s' ≠ e.session → (db.phase s').sqlCall = (sys.db.phase s').sqlCall)
    (history : db.history = sys.db.history ++ [e]) :
    Linked decode extratoJson (sys.advance extratoJson act db) := by
  obtain ⟨command, hcommand, hun, hquery⟩ : ∃ command, sys.command e.session = some command ∧
      Unexecuted sys e.session.1 command.tag ∧ call decode command.query = .ok e.sqlCall := by
    have hlink := h.link e.session
    cases hstage : sys.stage e.session with
    | waiting =>
      rw [hstage] at hlink
      rw [hlink.1] at hcall
      cases hcall
    | returned result =>
      rw [hstage] at hlink
      rw [hlink.1] at hcall
      cases hcall
    | running =>
      rw [hstage] at hlink
      obtain ⟨command, sqlCall, hcommand, hun, hphase, hquery⟩ := hlink
      rw [hcall] at hphase
      cases hphase
      exact ⟨command, hcommand, hun, hquery⟩
  have hk := h.instances e.session.1
  have heq : sys.advance extratoJson act db = {sys with
      db := db
      stage := Function.update sys.stage e.session (.returned (e.result extratoJson))
      executed := sys.executed ++ [⟨e.session.1, command.tag, e⟩]} := by
    unfold System.advance
    rw [of, returned_some history]
    dsimp only
    rw [hcommand]
  obtain ⟨hlocks, hprepared, hreplays⟩ := linked_database h hs
  rw [heq]
  refine ⟨hlocks, hprepared, hreplays, ?_, ?_, fun s => ?_, fun k => ?_, fun x hx => ?_⟩
  · rw [List.map_append, h.entries, history]
    rfl
  · rw [List.map_append]
    refine List.nodup_append.mpr ⟨h.once, List.nodup_singleton _, fun a ha b hb hab => ?_⟩
    obtain ⟨x, hx, rfl⟩ := List.mem_map.mp ha
    rw [List.map_singleton, List.mem_singleton] at hb
    rw [hb] at hab
    exact hun x hx (Prod.mk.inj hab)
  · dsimp only
    by_cases hs' : s = e.session
    · subst hs'
      rw [Function.update_self]
      constructor
      · show (db.phase e.session).sqlCall = none
        rw [idle]
        rfl
      · intro command' hcommand'
        have hsame : sys.command e.session = some command' := hcommand'
        rw [hcommand] at hsame
        cases hsame
        exact ⟨_, List.mem_append_right _ (List.mem_singleton_self _), rfl, rfl, hquery, rfl⟩
    · rw [Function.update_of_ne hs']
      have hlink := h.link s
      -- Another connection's command is another one.
      have hother : ∀ command', sys.command s = some command' → Unexecuted sys s.1 command'.tag →
          ∀ x ∈ sys.executed ++ [(⟨e.session.1, command.tag, e⟩ : Execution K N)],
            ¬ (x.server = s.1 ∧ x.tag = command'.tag) := by
        intro command' hcommand' hun' x hx hof
        rcases List.mem_append.mp hx with hx | hx
        · exact hun' x hx hof
        · rw [List.mem_singleton.mp hx] at hof
          obtain ⟨hserver, htag⟩ := hof
          have hconns : (sys.servers e.session.1).conns s.2 = some command' := by
            rw [show e.session.1 = s.1 from hserver]
            exact hcommand'
          have hconn := hk.tagged.apart e.session.2 s.2 command command' hcommand hconns htag
          exact hs' (Prod.ext hserver.symm hconn.symm)
      cases hstage : sys.stage s with
      | waiting =>
        rw [hstage] at hlink
        refine ⟨(others s hs').trans hlink.1, fun command' hcommand' => ?_⟩
        exact hother command' hcommand' (hlink.2 command' hcommand')
      | running =>
        rw [hstage] at hlink
        obtain ⟨command', sqlCall, hcommand', hun', hphase, hquery'⟩ := hlink
        exact ⟨command', sqlCall, hcommand', hother command' hcommand' hun', (others s hs').trans hphase, hquery'⟩
      | returned result =>
        rw [hstage] at hlink
        refine ⟨(others s hs').trans hlink.1, fun command' hcommand' => ?_⟩
        exact (hlink.2 command' hcommand').mono rfl
  · exact (h.instances k).mono rfl rfl
  · rcases List.mem_append.mp hx with hx | hx
    · exact (h.requested x hx).congr rfl
    · rw [List.mem_singleton.mp hx]
      obtain ⟨client, hsent⟩ := hk.sent e.session.2 command hcommand
      exact ⟨hk.tagged.below e.session.2 command hcommand, client, command.query, hsent, hquery⟩

theorem linked_advance (h : Linked decode extratoJson sys) (hcalls : sys.Calls decode act)
    (hs : sys.db.step act = .ok db) : Linked decode extratoJson (sys.advance extratoJson act db) := by
  cases step_follows hs with
  | goesOn of calls history => exact linked_goesOn h hs of calls history
  | begins s of idle begun others history => exact linked_begins h hcalls hs of begun others history
  | returns e of call idle others history => exact linked_returns h hs of call idle others history

end Advance

/-! ### Every run -/

theorem linked_step {sys sys' : System K P N} {event : Event K N} (h : Linked decode extratoJson sys)
    (hs : sys.step decode extratoJson event = .ok sys') : Linked decode extratoJson sys' := by
  cases event with
  | server k input =>
    simp only [System.step] at hs
    split at hs
    · rename_i hready
      split at hs
      · cases hs
      · rename_i s hstep
        cases hs
        exact linked_serve h hready hstep
    · cases hs
  | database act =>
    simp only [System.step] at hs
    split at hs
    · rename_i hcalls
      split at hs
      · cases hs
      · rename_i db hstep
        cases hs
        exact linked_advance h hcalls hstep
    · cases hs

theorem linked_boot {s : State P N} (hs : (State.start : Except Stop (State P N)) = .ok s) :
    Linked decode extratoJson (System.boot s : System K P N) := by
  obtain ⟨i, t, outcomes, rfl, ht, hd⟩ := start_cases hs
  have hadv := advances_dispatch ht hd
  obtain ⟨extra, hlog, hwrote, hdelivered⟩ := hadv.log
  have hnone : delivered s.log = [] := by
    rw [hlog, delivered_append, List.sublist_nil.mp hdelivered]
    rfl
  have hnew : ∀ c command, s.conns c = some command → ∃ client, .sent client command.tag command.query ∈ s.log := by
    intro c command hc
    rcases hadv.conns c command hc with ⟨hold, _⟩ | ⟨_, _, hsent⟩
    · cases hold
    · exact hsent
  refine ⟨locks_seeded, fun _ => trivial, .nil _, rfl, List.nodup_nil,
    fun session => ⟨rfl, fun _ _ x hx => absurd hx List.not_mem_nil⟩, fun k => ?_,
    fun x hx => absurd hx List.not_mem_nil⟩
  refine ⟨consistent_start hs, talks_start hs, hadv.tagged ⟨nofun, nofun⟩, hnew, ?_, ?_, ?_, ?_⟩
  · intro c command _
    show command.tag ∉ delivered s.log
    rw [hnone]
    exact List.not_mem_nil
  · show (delivered s.log).Nodup
    rw [hnone]
    exact List.nodup_nil
  · show ∀ tag ∈ delivered s.log, _
    rw [hnone]
    exact fun tag htag => absurd htag List.not_mem_nil
  · intro client buffer command hmem hstatus
    have hmem' : .wrote client buffer (some command) ∈ extra := by
      have hall : .wrote client buffer (some command) ∈ s.log := hmem
      rw [hlog] at hall
      exact (List.mem_append.mp hall).resolve_left List.not_mem_nil
    obtain ⟨⟨c, hc⟩, _⟩ := hwrote client buffer command hmem' hstatus
    cases hc

end Rinha.Deployment
