import Rinha.Deployment.Links
import Rinha.Server.Validation

/-! What the clients are told is what the tables hold.

Through every interleaving of the servers' turns and the database's statements, what
is committed is what the calls of distinct commands leave, each of them run alone, one
after the other; each is the command of one request on one connection; and a 200 with
a reply reports one of them, that was neither refused nor failed (`exactly_once`).
Where the turns are clean it reports the one that was the client's own
(`own_execution`). -/
namespace Rinha.Deployment
open Library Client Server Database

variable {K P N : Nat}

section Statements
variable (decode : List UInt8 → Option (List Char)) (extratoJson : Extrato → List UInt8)

/-- The execution of a command, that was neither refused nor failed, with the result
that was read. -/
structure Executes (k : Fin K) (command : Command) (x : Execution K N) : Prop where
  server : x.server = k
  tag : x.tag = command.tag
  call : call decode command.query = .ok x.entry.sqlCall
  results : command.results = [x.entry.result extratoJson]
  done : x.entry.Done

structure ExactlyOnce (sys : System K P N) : Prop where
  /-- What is committed is what was executed, one after the other. -/
  tables : Replays Alone Database.seeded (sys.executed.map Execution.entry) sys.db.tables
  /-- Nothing is executed twice. -/
  once : (sys.executed.map fun x => (x.server, x.tag)).Nodup
  /-- What was executed is the command of a request. -/
  requested : ∀ x ∈ sys.executed, ∃ client request query, .received client request ∈ (sys.servers x.server).log ∧
    queryOf request = some query ∧ .sent client x.tag query ∈ (sys.servers x.server).log ∧
      call decode query = .ok x.entry.sqlCall
  /-- A connection has one command executed at most. -/
  single : ∀ x ∈ sys.executed, ∀ y ∈ sys.executed, x.server = y.server → ∀ client query query',
    .sent client x.tag query ∈ (sys.servers x.server).log →
      .sent client y.tag query' ∈ (sys.servers x.server).log → x = y
  /-- A 200 with a reply has that of an execution. -/
  answered : ∀ k client buffer command, .wrote client buffer (some command) ∈ (sys.servers k).log →
    status buffer = bytes "200" → GivesReply buffer command ∧
      ∃ x ∈ sys.executed, Executes decode extratoJson k command x
  /-- No reply is given twice. -/
  delivered : ∀ k, (delivered (sys.servers k).log).Nodup

/-- A connection with a 200 with a reply has one request, the request's command, sent
once, and this answer; the reply is that of the command's execution. -/
def OwnExecution (sys : System K P N) : Prop :=
  ∀ k client buffer command, .wrote client buffer (some command) ∈ (sys.servers k).log →
    status buffer = bytes "200" → ∃ request,
      talk (sys.servers k).log client = [.received client request, .sent client command.tag command.query,
        .wrote client buffer (some command)] ∧ queryOf request = some command.query ∧
          ∃ x ∈ sys.executed, Executes decode extratoJson k command x

end Statements

/-- A server's turn is clean. -/
def CleanEvent (sys : System K P N) : Event K N → Prop
  | .server k input => CleanTurn (sys.servers k) input
  | .database _ => True

instance (sys : System K P N) : (event : Event K N) → Decidable (CleanEvent sys event)
  | .server k input => inferInstanceAs (Decidable (CleanTurn (sys.servers k) input))
  | .database _ => .isTrue trivial

variable {decode : List UInt8 → Option (List Char)} {extratoJson : Extrato → List UInt8}

/-- A 200 that is given has the result of a call that was done. -/
theorem Instance.executes {sys : System K P N} {k : Fin K} (h : Instance decode extratoJson sys k) {client : Nat}
    {buffer : List UInt8} {command : Command} (hmem : .wrote client buffer (some command) ∈ (sys.servers k).log)
    (hstatus : status buffer = bytes "200") :
    GivesReply buffer command ∧ ∃ x ∈ sys.executed, Executes decode extratoJson k command x := by
  obtain ⟨hgives, result, hresults, x, hx, hserver, htag, hcall, hresult⟩ :=
    h.answered client buffer command hmem hstatus
  refine ⟨hgives, x, hx, hserver, htag, hcall, by rw [hresult]; exact hresults, ?_⟩
  obtain ⟨_, first, hhead, hok, hvalue, _⟩ := hgives
  rw [hresults] at hhead
  cases hhead
  rw [← hresult] at hok hvalue
  exact Entry.done_of_result hok hvalue

theorem Linked.exactlyOnce {sys : System K P N} (h : Linked decode extratoJson sys) :
    ExactlyOnce decode extratoJson sys where
  tables := by
    rw [h.entries]
    exact h.replays
  once := h.once
  requested := by
    intro x hx
    obtain ⟨_, client, query, hsent, hcall⟩ := h.requested x hx
    have hexchange := (h.instances x.server).talks.exchange client
    obtain ⟨request, hreceived, hquery⟩ := hexchange.sent_request (mem_talk.mpr hsent)
    exact ⟨client, request, query, mem_talk.mp hreceived, hquery, hsent, hcall⟩
  single := by
    intro x hx y hy hserver client query query' hsent hsent'
    have hexchange := (h.instances x.server).talks.exchange client
    have htag := hexchange.sent_unique (mem_talk.mpr hsent) (mem_talk.mpr hsent')
    exact List.inj_on_of_nodup_map h.once hx hy (Prod.ext hserver htag)
  answered := fun k _ _ _ hmem hstatus => (h.instances k).executes hmem hstatus
  delivered := fun k => (h.instances k).once

/-- **Every request is executed once at most, and once where it is answered with a
reply**, in every run of the servers and their database. -/
theorem exactly_once {s : State P N} (hs : (State.start : Except Stop (State P N)) = .ok s)
    (events : List (Event K N)) :
    Throughout (System.step decode extratoJson) (ExactlyOnce decode extratoJson) (System.boot s) events :=
  (throughout_of_all (fun _ _ _ => linked_step) (linked_boot hs) events).mono fun _ => Linked.exactlyOnce

/-! ### Clean turns -/

/-- A step of the database changes no server, and a turn of one server no other. -/
theorem System.step_servers {Q : State P N → Prop} {sys sys' : System K P N} {event : Event K N}
    (hs : sys.step decode extratoJson event = .ok sys') (h : ∀ k, Q (sys.servers k))
    (hturn : ∀ k input s, event = .server k input → (sys.servers k).step input = .ok s → Q s) (k' : Fin K) :
    Q (sys'.servers k') := by
  cases event with
  | server k input =>
    simp only [System.step] at hs
    split at hs
    · split at hs
      · cases hs
      · rename_i s hstep
        cases hs
        by_cases hk : k' = k
        · rw [hk, serve_self]
          exact hturn k input s rfl hstep
        · rw [serve_ne hk]
          exact h k'
    · cases hs
  | database act =>
    simp only [System.step] at hs
    split at hs
    · split at hs
      · cases hs
      · rename_i db _
        cases hs
        have hservers : (sys.advance extratoJson act db).servers = sys.servers := by
          unfold System.advance
          split
          · rfl
          · rfl
          · split <;> rfl
        rw [hservers]
        exact h k'
    · cases hs

/-- The servers' turns keep what clean turns keep. -/
theorem sound_event {sys sys' : System K P N} {event : Event K N}
    (h : Linked decode extratoJson sys ∧ ∀ k, Sound (sys.servers k))
    (hC : CleanEvent sys event) (hs : sys.step decode extratoJson event = .ok sys') :
    Linked decode extratoJson sys' ∧ ∀ k, Sound (sys'.servers k) := by
  refine ⟨linked_step h.1 hs, System.step_servers (Q := Sound) hs h.2 fun k input s hevent hstep => ?_⟩
  subst hevent
  exact (sound_step ⟨(h.1.instances k).consistent, h.2 k⟩ hC hstep).2

theorem Linked.ownExecution {sys : System K P N} (h : Linked decode extratoJson sys)
    (hservers : ∀ k, Sound (sys.servers k)) : OwnExecution decode extratoJson sys := by
  intro k client buffer command hmem hstatus
  rcases (hservers k).traced.replies.own client buffer _ hmem hstatus with
    ⟨_, _, hsource, _⟩ | ⟨_, command', _, hsource, ⟨_, _, hsent⟩, _⟩
  · cases hsource
  · cases hsource
    have hexchange := (h.instances k).talks.exchange client
    obtain ⟨request, hquery, htalk⟩ := hexchange.whole (mem_talk.mpr hsent) (mem_talk.mpr hmem)
    exact ⟨request, htalk, hquery, ((h.instances k).executes hmem hstatus).2⟩

/-- **A reply is that of the client's own request**, where the turns are clean: the
request was executed, once, and its client told so. -/
theorem own_execution {s : State P N} (hs : (State.start : Except Stop (State P N)) = .ok s)
    (events : List (Event K N)) (h : EachStep (System.step decode extratoJson) CleanEvent (System.boot s) events) :
    Throughout (System.step decode extratoJson) (OwnExecution decode extratoJson) (System.boot s) events :=
  (throughout_of_steps (fun _ _ _ => sound_event)
    ⟨linked_boot hs, fun _ => sound_start hs⟩ h).mono fun _ h => h.1.ownExecution h.2

/-! ### A credit -/

def latin (text : List UInt8) : Option (List Char) := some (text.map fun b => Char.ofNat b.toNat)

def noText (_ : Extrato) : List UInt8 := bytes "[]"

def umReal : Args := ⟨Integer.ofFin 1, Integer.ofFin 1, some (Varchar.cast 10 ['a'])⟩

/-- The second of two instances reads `plainBody`, the database executes its credit
and the instance answers it. -/
def creditRun : List (Event 2 1) :=
  [.server 1 (done 0 5 []),
    .server 1 (.completes ⟨0, 78, postHead ++ plainBody, []⟩ fun _ =>
      ⟨true, [oneValue (some (rowJson (Integer.ofFin 100000) (Integer.ofFin 1)))]⟩),
    .database (.call (1, 0) .pushCredito umReal), .database (.update (1, 0)), .database (.insert (1, 0)),
    .database (.commit (1, 0)), .server 1 (done 1 0 []), .server 1 (done 1 100 []), .server 1 (done 1 0 [])]

theorem creditRun_runs :
    ∃ (s : State 2 1) (sys : System 2 2 1), State.start = .ok s ∧
      run (System.step latin noText) (System.boot s) creditRun = .ok sys ∧
      EachStep (System.step latin noText) CleanEvent (System.boot s : System 2 2 1) creditRun ∧
        sys.db.tables.transacoes.length = 1 ∧ delivered (sys.servers 1).log = [0] := by
  obtain ⟨s, hs, hrun⟩ := exists_of_map_ok (x := (State.start : Except Stop (State 2 1)))
    (f := fun s => (decide (EachStep (System.step latin noText) CleanEvent (System.boot s : System 2 2 1) creditRun),
      (run (System.step latin noText) (System.boot s : System 2 2 1) creditRun).map fun sys =>
        (sys.db.tables.transacoes.length, delivered (sys.servers 1).log)))
    (b := (true, .ok (1, [0]))) (by decide +kernel)
  obtain ⟨hC, hsys⟩ := Prod.mk.inj hrun
  obtain ⟨sys, hsys, hends⟩ := exists_of_map_ok hsys
  obtain ⟨hrows, hdelivered⟩ := Prod.mk.inj hends
  exact ⟨s, sys, hs, hsys, of_decide_eq_true hC, hrows, hdelivered⟩

theorem exactly_once_creditRun :
    ∃ (s : State 2 1) (sys : System 2 2 1), State.start = .ok s ∧
      run (System.step latin noText) (System.boot s) creditRun = .ok sys ∧
        sys.db.tables.transacoes.length = 1 ∧ ExactlyOnce latin noText sys := by
  obtain ⟨s, sys, hs, hsys, _, hrows, _⟩ := creditRun_runs
  exact ⟨s, sys, hs, hsys, hrows, (exactly_once hs creditRun).last hsys⟩

theorem own_execution_creditRun :
    ∃ (s : State 2 1) (sys : System 2 2 1), State.start = .ok s ∧
      run (System.step latin noText) (System.boot s) creditRun = .ok sys ∧
        delivered (sys.servers 1).log = [0] ∧ OwnExecution latin noText sys := by
  obtain ⟨s, sys, hs, hsys, hC, _, hdelivered⟩ := creditRun_runs
  exact ⟨s, sys, hs, hsys, hdelivered, (own_execution hs creditRun hC).last hsys⟩

end Rinha.Deployment
