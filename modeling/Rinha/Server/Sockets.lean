import Mathlib.Data.Fintype.Basic
import Rinha.Server.Draining
import Rinha.Server.Recorded
import Rinha.Server.Residue

/-! The sockets of the connections.

The kernel gives a descriptor with every connection that is accepted, and takes it back
when it is closed. A slot has the descriptor of its connection from then on to the end
of its close, whatever happens to it, so every descriptor that was given is one slot's
or was closed (`sockets_accounted`). Where the kernel gives no descriptor that is open,
no two slots have the same one, and what is read, written or closed is open
(`sockets_apart`); and a server that waits for nobody but a new client has closed them
all (`sockets_closed`). -/
namespace Rinha.Server
open Library Request Client

variable {P N : Nat}

/-- The descriptor of a slot that has a connection. -/
def ReqRes.descriptor {κ : Type*} (r : ReqRes κ) : Option Int :=
  if r.ring = true ∧ r.lastEvent ≠ .acceptting then some r.clientFd else none

/-- What the kernel gives and takes back when the server waits. -/
def State.gives (s : State P N) : Input → List Int
  | .completes c _ =>
    match s.pending[c.index]? with
    | none => []
    | some p => if p.op = .accept ∧ 0 ≤ c.result then [c.result] else []
  | .interrupted _ => []
  | .fails => []

def State.closes (s : State P N) : Input → List Int
  | .completes c _ =>
    match s.pending[c.index]? with
    | none => []
    | some p => if p.op = .close ∧ 0 ≤ c.result then [(s.pool p.slot).clientFd] else []
  | .interrupted _ => []
  | .fails => []

/-- A server and the descriptors that it was given and has closed so far. -/
structure Sockets (P N : Nat) where
  state : State P N
  given : List Int
  closed : List Int

def Sockets.step (w : Sockets P N) (input : Input) : Except Stop (Sockets P N) :=
  match w.state.step input with
  | .error e => .error e
  | .ok s => .ok ⟨s, w.given ++ w.state.gives input, w.closed ++ w.state.closes input⟩

def Sockets.start (s : State P N) : Sockets P N := ⟨s, [], []⟩

/-- The slots that have a descriptor. -/
def State.holders (s : State P N) (fd : Int) : Finset (Fin P) :=
  Finset.univ.filter fun i => (s.pool i).descriptor = some fd

theorem mem_holders {s : State P N} {fd : Int} {i : Fin P} :
    i ∈ s.holders fd ↔ (s.pool i).descriptor = some fd := by
  simp [State.holders]

/-! ### What keeps a descriptor -/

theorem descriptor_of {κ : Type*} {r : ReqRes κ} (hring : r.ring = true) (hevent : r.lastEvent ≠ .acceptting) :
    r.descriptor = some r.clientFd := if_pos ⟨hring, hevent⟩

/-- An operation on the connection follows another one. -/
theorem descriptor_next {κ : Type*} {r r' : ReqRes κ} (hring : r.ring = true) (hevent : r.lastEvent ≠ .acceptting)
    (hring' : r'.ring = true) (hevent' : r'.lastEvent ≠ .acceptting) (hfd : r'.clientFd = r.clientFd) :
    r'.descriptor = r.descriptor := by
  rw [descriptor_of hring hevent, descriptor_of hring' hevent', hfd]

/-- Every slot has the descriptor that it had. -/
def SameSockets (s t : State P N) : Prop := ∀ i, (t.pool i).descriptor = (s.pool i).descriptor

theorem SameSockets.update {s t : State P N} {i : Fin P} {r : ReqRes (Fin N)}
    (hr : r.descriptor = (s.pool i).descriptor) (hpool : t.pool = Function.update s.pool i r) : SameSockets s t := by
  intro j
  rw [hpool]
  by_cases hj : j = i
  · rw [hj, Function.update_self, hr]
  · rw [Function.update_of_ne hj]

theorem SameSockets.trans {s t u : State P N} (h : SameSockets s t) (h' : SameSockets t u) : SameSockets s u :=
  fun i => (h' i).trans (h i)

/-- The queued slots are those of requests that were read. -/
def QueuedRead (s : State P N) : Prop := ∀ i ∈ s.queue.contents, (s.pool i).lastEvent = .reading

theorem getDbconn_pool (s : State P N) : s.getDbconn.2.pool = s.pool := by
  unfold State.getDbconn
  split <;> rfl

theorem sameSockets_getDbconn (s : State P N) : SameSockets s s.getDbconn.2 := by
  intro i
  rw [getDbconn_pool]

theorem queuedRead_getDbconn {s : State P N} (h : QueuedRead s) : QueuedRead s.getDbconn.2 := by
  intro i hi
  rw [getDbconn_queue] at hi
  rw [getDbconn_pool]
  exact h i hi

/-- A turn of the dispatch takes the first of the queued slots on. -/
theorem queuedRead_turn {s t : State P N} {queue : Queue (Fin P)} {i : Fin P} {r : ReqRes (Fin N)}
    (hs : Consistent s []) (h : QueuedRead s) (hcons : s.queue.contents = i :: queue.contents)
    (hqueue : t.queue = queue) (hpool : t.pool = Function.update s.pool i r) : QueuedRead t := by
  intro j hj
  rw [hqueue] at hj
  rw [hpool, Function.update_of_ne ((head_elsewhere hs hcons).1 j hj)]
  exact h j (by rw [hcons]; exact List.mem_cons_of_mem i hj)

theorem sameSockets_dispatch {s s' : State P N} (hs : Consistent s []) (h : QueuedRead s) {outcomes : Nat → Outcome}
    (hd : s.queuDispatch outcomes = .ok s') : SameSockets s s' ∧ QueuedRead s' := by
  have hread : ∀ {t : State P N} {queue : Queue (Fin P)} {i : Fin P}, QueuedRead t →
      t.queue.contents = i :: queue.contents → (t.pool i).lastEvent = .reading := by
    intro t queue i ht hcons
    exact ht i (by rw [hcons]; exact List.mem_cons_self ..)
  have hkept : KeptByTurns fun (_ : Option (Fin N)) (t : State P N) => SameSockets s t ∧ QueuedRead t := by
    constructor
    · intro c t queue ht _ hnil
      exact ⟨ht.1, fun j hj => by rw [hnil] at hj; cases hj⟩
    · intro c t queue i response htcons ht hcons hq _ _
      have hevent : (t.pool i).lastEvent ≠ .acceptting := by rw [hread ht.2 hcons]; decide
      refine ⟨ht.1.trans (.update ?_ rfl), queuedRead_turn htcons ht.2 hcons rfl rfl⟩
      exact descriptor_next hq.ring hevent hq.ring (show Event.writing ≠ .acceptting by decide) rfl
    · intro c t queue i query o htcons ht hcons hq _
      have hevent : (t.pool i).lastEvent ≠ .acceptting := by rw [hread ht.2 hcons]; decide
      have hturn : SameSockets t (t.sendTurn queue i c query o) := by
        refine .update ?_ rfl
        exact descriptor_next hq.ring hevent hq.ring (show Event.dbResponding ≠ .acceptting by decide) rfl
      exact ⟨ht.1.trans (hturn.trans (sameSockets_getDbconn _)),
        queuedRead_getDbconn (queuedRead_turn htcons ht.2 hcons rfl rfl)⟩
  exact queuDispatch_keeps (Q := fun t => SameSockets s t ∧ QueuedRead t) hkept (fun _ ht => ht) (fun _ _ ht => ht) hs
    ⟨sameSockets_getDbconn s, queuedRead_getDbconn h⟩ hd

/-! ### A completion -/

theorem controller_keeps {κ : Type*} (r : ReqRes κ) : (controller r).ring = r.ring ∧
    (controller r).lastEvent = r.lastEvent ∧ (controller r).clientFd = r.clientFd := by
  rcases controller_cases r with ⟨_, _, _, heq⟩ | ⟨_, _, _, _, _, _, heq⟩ | ⟨_, _, heq, _⟩
  · rw [heq]
    exact ⟨rfl, rfl, rfl⟩
  · rw [heq]
    exact ⟨rfl, rfl, rfl⟩
  · rw [heq]
    exact ⟨rfl, rfl, rfl⟩

/-- A slot in hand is changed. -/
theorem queuedRead_hand {s t : State P N} {i : Fin P} {r : ReqRes (Fin N)} (hs : Consistent s [i]) (h : QueuedRead s)
    (hqueue : t.queue = s.queue) (hpool : t.pool = Function.update s.pool i r) : QueuedRead t := by
  intro j hj
  rw [hqueue] at hj
  rw [hpool, Function.update_of_ne (hs.not_queued hj)]
  exact h j hj

theorem Reported.keeps {κ : Type*} {r r' : ReqRes κ} {res : Option PGresult} (h : Reported r res r') :
    r'.ring = r.ring ∧ r'.clientFd = r.clientFd := by
  cases h with
  | failed => exact ⟨rfl, rfl⟩
  | value => exact ⟨rfl, rfl⟩

theorem State.afterRead_slot (s : State P N) (i : Fin P) (data : List UInt8) : ((s.afterRead i data).pool i).lastEvent =
    (s.pool i).lastEvent := by
  unfold State.afterRead State.note
  rw [State.setSlot_self]

theorem onRead_sockets {s t : State P N} {i : Fin P} (hs : Consistent s [i]) (h : QueuedRead s)
    (hevent : (s.pool i).lastEvent = .reading) (ht : s.onRead i = .ok t) : SameSockets s t ∧ QueuedRead t := by
  obtain ⟨hring, hlast, hfd⟩ := controller_keeps (s.pool i)
  rw [hs.hand i (List.mem_singleton_self i)] at hring
  rw [hevent] at hlast
  have hconnected := hs.hand i (List.mem_singleton_self i)
  have hread : (s.pool i).lastEvent ≠ .acceptting := by rw [hevent]; decide
  have hother : ∀ {r : ReqRes (Fin N)} {j : Fin P}, j ∈ s.queue.contents →
      Function.update s.pool i r j = s.pool j := fun hj => Function.update_of_ne (hs.not_queued hj) ..
  unfold State.onRead at ht
  simp only [State.setSlot_self] at ht
  split at ht
  · cases ht
    have hpool : ((s.setSlot i (controller (s.pool i))).pushWriting i none).pool =
        Function.update s.pool i {controller (s.pool i) with lastEvent := .writing} := by
      unfold State.pushWriting
      simp only [State.setSlot, State.submit, State.note, Function.update_self, Function.update_idem]
    refine ⟨.update ?_ hpool, fun j hj => ?_⟩
    · exact descriptor_next hconnected hread hring (show Event.writing ≠ .acceptting by decide) hfd
    · rw [hpool, hother hj]
      exact h j hj
  · split at ht
    · cases ht
    · rename_i queue hpush
      cases ht
      refine ⟨.update ?_ rfl, fun j hj => ?_⟩
      · exact descriptor_next hconnected hread hring (by rw [hlast]; decide) hfd
      · obtain ⟨queue', _, hpush', hsub, _⟩ := push_contents hs.sound i
        rw [show s.queue.queuPush i = .ok queue from hpush] at hpush'
        cases hpush'
        show (Function.update s.pool i (controller (s.pool i)) j).lastEvent = .reading
        rcases List.mem_append.mp (hsub.subset hj) with hj | hj
        · rw [hother hj]
          exact h j hj
        · rw [List.mem_singleton.mp hj, Function.update_self, hlast]

/-- What a completion does to the descriptors: one is given, one is taken back, or every
slot has the one that it had. -/
inductive Moved (s t : State P N) (c : Completion) (p : Pending P) : Prop where
  | accepts (hop : p.op = .accept) (hresult : 0 ≤ c.result) (hbefore : (s.pool p.slot).descriptor = none)
      (hafter : (t.pool p.slot).descriptor = some c.result)
      (hother : ∀ j, j ≠ p.slot → (t.pool j).descriptor = (s.pool j).descriptor)
  | closes (hop : p.op = .close) (hresult : 0 ≤ c.result)
      (hbefore : (s.pool p.slot).descriptor = some (s.pool p.slot).clientFd)
      (hafter : (t.pool p.slot).descriptor = none)
      (hother : ∀ j, j ≠ p.slot → (t.pool j).descriptor = (s.pool j).descriptor)
  | keeps (hop : 0 ≤ c.result → p.op ≠ .accept ∧ p.op ≠ .close) (same : SameSockets s t)

theorem handle_moved {s t : State P N} {c : Completion} {p : Pending P} (hs : Consistent s []) (h : QueuedRead s)
    (hp : s.pending[c.index]? = some p) (ht : s.handle c = .ok t) : Moved s t c p ∧ QueuedRead t := by
  obtain ⟨p', hp', hslot, hcompleted, hhandled, _⟩ := handle_cases hs ht
  obtain rfl : p = p' := Option.some.inj (hp.symm.trans hp')
  have hrest : QueuedRead (s.completed c.index) := h
  by_cases hread : p.op = .read ∧ 0 ≤ c.result
  · obtain ⟨hop, hresult⟩ := hread
    have hfill : (s.completed c.index).fill c p = (s.completed c.index).afterRead p.slot c.data := if_pos ⟨hop, hresult⟩
    have hevent : (((s.completed c.index).afterRead p.slot c.data).pool p.slot).lastEvent = .reading := by
      rw [State.afterRead_slot]
      show (s.pool p.slot).lastEvent = .reading
      rw [hslot.event, hop]
      rfl
    have hsame : SameSockets s ((s.completed c.index).afterRead p.slot c.data) :=
      .update (r := {s.pool p.slot with buffer := memcpy (s.pool p.slot).buffer c.data}) rfl rfl
    have hafter : Consistent ((s.completed c.index).afterRead p.slot c.data) [p.slot] :=
      (hcompleted.setSlot (r := {s.pool p.slot with buffer := memcpy (s.pool p.slot).buffer c.data}) hslot.ring).congr
        rfl rfl rfl
    have hqueue : QueuedRead ((s.completed c.index).afterRead p.slot c.data) := queuedRead_hand hcompleted hrest rfl rfl
    rw [handle_eq hp (possible_of_handle hp ht), if_neg (not_lt.mpr hresult), hfill, State.onEvent, hevent] at ht
    simp only at ht
    split at ht
    · cases ht
    · rename_i u hu
      split at ht
      · cases ht
      · cases ht
        obtain ⟨hsame', hread⟩ := onRead_sockets hafter hqueue hevent hu
        exact ⟨.keeps (fun _ => by rw [hop]; exact ⟨nofun, nofun⟩) (hsame.trans hsame'), hread⟩
  · cases hhandled with
    | failed hresult => exact ⟨.keeps (fun hle => absurd hle (not_le.mpr hresult)) fun _ => rfl, h⟩
    | accepted j hop hresult hfree hne =>
      rw [hop] at hslot
      have hzero := hcompleted.free j hfree
      refine ⟨.accepts hop hresult ?_ ?_ fun k hk => ?_, fun k hk => ?_⟩
      · rw [show s.pool p.slot = {ReqRes.zero with ring := true} from hslot]
        rfl
      · dsimp only
        rw [Function.update_of_ne (Ne.symm hne), Function.update_self]
        rfl
      · dsimp only
        by_cases hj : k = j
        · rw [hj, Function.update_self, show s.pool j = .zero from hzero]
          rfl
        · rw [Function.update_of_ne hj, Function.update_of_ne hk]
          rfl
      · have hj : k ≠ j := by
          rintro rfl
          have hring := (hcompleted.queued k hk).ring
          rw [hfree] at hring
          cases hring
        dsimp only
        rw [Function.update_of_ne hj, Function.update_of_ne (hcompleted.not_queued hk)]
        exact h k hk
    | answered response r hop hresult => exact absurd ⟨hop, hresult⟩ hread
    | queued queue r hop hresult => exact absurd ⟨hop, hresult⟩ hread
    | replied d conn r handler hop hresult hhandler hdbconn hcall =>
      rw [hop] at hslot
      have hr : r.ring = (s.pool p.slot).ring ∧ r.clientFd = (s.pool p.slot).clientFd := by
        rcases handler_cases hcall with ⟨_, _, hreported⟩ | ⟨_, _, hreported⟩
        · exact hreported.keeps
        · exact hreported.keeps
      refine ⟨.keeps (fun _ => by rw [hop]; exact ⟨nofun, nofun⟩) (.update ?_ rfl),
        queuedRead_hand hcompleted hrest rfl rfl⟩
      have hreplied : (s.pool p.slot).lastEvent ≠ .acceptting := by rw [hslot.2.1]; decide
      exact descriptor_next hslot.1 hreplied (hr.1.trans hslot.1) (show Event.writing ≠ .acceptting by decide) hr.2
    | written hop hresult =>
      rw [hop] at hslot
      refine ⟨.keeps (fun _ => by rw [hop]; exact ⟨nofun, nofun⟩) (.update ?_ rfl),
        queuedRead_hand hcompleted hrest rfl rfl⟩
      have hwrote : (s.pool p.slot).lastEvent ≠ .acceptting := by rw [hslot.2]; decide
      exact descriptor_next hslot.1 hwrote hslot.1 (show Event.closing ≠ .acceptting by decide) rfl
    | closed hop hresult =>
      rw [hop] at hslot
      refine ⟨.closes hop hresult ?_ ?_ fun j hj => ?_, queuedRead_hand hcompleted hrest rfl rfl⟩
      · exact descriptor_of hslot.1 (by rw [hslot.2]; decide)
      · dsimp only
        rw [Function.update_self]
        rfl
      · dsimp only
        rw [Function.update_of_ne hj]
        rfl

/-! ### The accounts -/

theorem holders_same {s t : State P N} {fd : Int} (h : SameSockets s t) : t.holders fd = s.holders fd := by
  ext i
  rw [mem_holders, mem_holders, h i]

/-- A slot that gets a descriptor is one more that has it. -/
theorem card_holders_gain {s t : State P N} {i : Fin P} {fd' : Int} (hbefore : (s.pool i).descriptor = none)
    (hafter : (t.pool i).descriptor = some fd')
    (hother : ∀ j, j ≠ i → (t.pool j).descriptor = (s.pool j).descriptor) (fd : Int) :
    (t.holders fd).card = (s.holders fd).card + [fd'].count fd := by
  have hnot : i ∉ s.holders fd := by
    rw [mem_holders, hbefore]
    exact Option.some_ne_none fd ∘ Eq.symm
  by_cases hfd : fd' = fd
  · have hinsert : t.holders fd = insert i (s.holders fd) := by
      ext j
      rw [Finset.mem_insert, mem_holders, mem_holders]
      by_cases hj : j = i
      · simp [hj, hafter, hfd]
      · simp [hj, hother j hj]
    rw [hinsert, Finset.card_insert_of_notMem hnot, hfd, List.count_singleton_self]
  · have hsame : t.holders fd = s.holders fd := by
      ext j
      rw [mem_holders, mem_holders]
      by_cases hj : j = i
      · simp [hj, hafter, hbefore, hfd]
      · rw [hother j hj]
    rw [hsame, List.count_singleton, if_neg (by simpa using hfd), Nat.add_zero]

theorem Moved.holders {s t : State P N} {c : Completion} {p : Pending P} (h : Moved s t c p)
    (hp : s.pending[c.index]? = some p) (outcomes : Nat → Outcome) (fd : Int) :
    (t.holders fd).card + (s.closes (.completes c outcomes)).count fd =
      (s.holders fd).card + (s.gives (.completes c outcomes)).count fd := by
  unfold State.gives State.closes
  simp only [hp]
  cases h with
  | accepts hop hresult hbefore hafter hother =>
    have hclose : ¬ (p.op = .close ∧ 0 ≤ c.result) := by
      rw [hop]
      exact fun h => nomatch h.1
    rw [if_neg hclose, if_pos ⟨hop, hresult⟩, card_holders_gain hbefore hafter hother fd]
    rfl
  | closes hop hresult hbefore hafter hother =>
    have haccept : ¬ (p.op = .accept ∧ 0 ≤ c.result) := by
      rw [hop]
      exact fun h => nomatch h.1
    rw [if_pos ⟨hop, hresult⟩, if_neg haccept,
      card_holders_gain hafter hbefore (fun j hj => (hother j hj).symm) fd]
    rfl
  | keeps hop same =>
    rw [if_neg fun h => (hop h.2).2 h.1, if_neg fun h => (hop h.2).1 h.1, holders_same same]

/-- The descriptors that a server was given are those that its slots have and those that
it has closed. -/
def Accounted (w : Sockets P N) : Prop :=
  ∀ fd, w.given.count fd = (w.state.holders fd).card + w.closed.count fd

theorem Sockets.step_ok {w w' : Sockets P N} {input : Input} (h : w.step input = .ok w') :
    w.state.step input = .ok w'.state ∧ w'.given = w.given ++ w.state.gives input ∧
      w'.closed = w.closed ++ w.state.closes input := by
  unfold Sockets.step at h
  split at h
  · cases h
  · rename_i s hs
    cases h
    exact ⟨hs, rfl, rfl⟩

/-- What a turn gives and takes back is what the slots get and lose in it. -/
theorem step_holders {s s' : State P N} {input : Input} (hs : Consistent s []) (h : QueuedRead s)
    (hstep : s.step input = .ok s') : QueuedRead s' ∧
      ∀ fd, (s'.holders fd).card + (s.closes input).count fd = (s.holders fd).card + (s.gives input).count fd := by
  rcases step_cases hstep with ⟨c, outcomes, t, rfl, ht, hd⟩ | ⟨outcomes, rfl, hd⟩
  · obtain ⟨p, hp, _, _, _, hcons⟩ := handle_cases hs ht
    obtain ⟨hmoved, hread⟩ := handle_moved hs h hp ht
    obtain ⟨hsame, hread'⟩ := sameSockets_dispatch hcons hread hd
    refine ⟨hread', fun fd => ?_⟩
    rw [holders_same hsame]
    exact hmoved.holders hp outcomes fd
  · obtain ⟨hsame, hread'⟩ := sameSockets_dispatch hs h hd
    refine ⟨hread', fun fd => ?_⟩
    rw [holders_same hsame]
    rfl

structure Tracked (w : Sockets P N) : Prop where
  consistent : Consistent w.state []
  read : QueuedRead w.state
  accounted : Accounted w

theorem tracked_step {w w' : Sockets P N} {input : Input} (h : Tracked w) (hs : w.step input = .ok w') :
    Tracked w' := by
  obtain ⟨hstep, hgiven, hclosed⟩ := Sockets.step_ok hs
  obtain ⟨hread, hholders⟩ := step_holders h.consistent h.read hstep
  refine ⟨consistent_step h.consistent hstep, hread, fun fd => ?_⟩
  have hbefore := h.accounted fd
  have hturn := hholders fd
  rw [hgiven, hclosed, List.count_append, List.count_append]
  omega

theorem tracked_start {s : State P N} (hs : (State.start : Except Stop (State P N)) = .ok s) :
    Tracked (Sockets.start s) := by
  have hcons := consistent_start hs
  obtain ⟨i, t, outcomes, rfl, ht, hd⟩ := start_cases hs
  obtain ⟨hsame, hread⟩ := sameSockets_dispatch ht (fun j hj => nomatch hj) hd
  refine ⟨hcons, hread, fun fd => ?_⟩
  show 0 = (s.holders fd).card + 0
  rw [holders_same hsame, Nat.add_zero, eq_comm, Finset.card_eq_zero, Finset.eq_empty_iff_forall_notMem]
  intro j hj
  rw [mem_holders] at hj
  by_cases hji : j = i
  · simp [hji, ReqRes.descriptor, ReqRes.zero] at hj
  · simp [hji, ReqRes.descriptor, ReqRes.zero] at hj

/-- **Every descriptor is accounted for**, in every run: as often as it was given it is a
slot's, or was closed. -/
theorem sockets_accounted {s : State P N} (hs : (State.start : Except Stop (State P N)) = .ok s)
    (inputs : List Input) : Throughout Sockets.step Accounted (Sockets.start s) inputs :=
  (throughout_of_all (fun _ _ _ => tracked_step) (tracked_start hs) inputs).mono fun _ h => h.accounted

/-! ### Descriptors that are not open -/

/-- The kernel gives no descriptor that is open. -/
def GivesFresh (w : Sockets P N) (input : Input) : Prop :=
  ∀ fd ∈ w.state.gives input, w.given.count fd = w.closed.count fd

instance (w : Sockets P N) (input : Input) : Decidable (GivesFresh w input) :=
  inferInstanceAs (Decidable (∀ fd ∈ w.state.gives input, _))

/-- The operation is one on the slot's connection. -/
def Op.onClient : Op → Bool
  | read | write | close => true
  | accept | dbRead => false

theorem SlotFor.onClient {op : Op} {r : ReqRes (Fin N)} (h : SlotFor op r) (hop : op.onClient = true) :
    r.descriptor = some r.clientFd := by
  apply descriptor_of h.ring
  cases op with
  | accept => cases hop
  | read =>
    obtain ⟨fd, rfl⟩ := h
    exact nofun
  | write => rw [h.2]; exact nofun
  | close => rw [h.2]; exact nofun
  | dbRead => cases hop

structure Apart (w : Sockets P N) : Prop where
  /-- No two slots have one descriptor. -/
  apart : ∀ i j fd, (w.state.pool i).descriptor = some fd → (w.state.pool j).descriptor = some fd → i = j
  /-- What an operation was submitted for is open. -/
  opened : ∀ p ∈ w.state.pending, p.op.onClient = true →
    w.given.count (w.state.pool p.slot).clientFd = w.closed.count (w.state.pool p.slot).clientFd + 1

theorem gives_eq (s : State P N) (input : Input) : s.gives input = [] ∨ ∃ fd, s.gives input = [fd] := by
  unfold State.gives
  split
  · split
    · exact .inl rfl
    · split
      · exact .inr ⟨_, rfl⟩
      · exact .inl rfl
  · exact .inl rfl
  · exact .inl rfl

/-- A descriptor that is not open is no slot's when it is given. -/
theorem single_step {w w' : Sockets P N} {input : Input} (h : Tracked w ∧ ∀ fd, (w.state.holders fd).card ≤ 1)
    (hfresh : GivesFresh w input) (hs : w.step input = .ok w') :
    Tracked w' ∧ ∀ fd, (w'.state.holders fd).card ≤ 1 := by
  obtain ⟨htracked, hsingle⟩ := h
  refine ⟨tracked_step htracked hs, fun fd => ?_⟩
  have hturn := (step_holders htracked.consistent htracked.read (Sockets.step_ok hs).1).2 fd
  have hbefore := hsingle fd
  rcases gives_eq w.state input with hnone | ⟨fd', hone⟩
  · rw [hnone, List.count_nil] at hturn
    omega
  · by_cases hfd : fd' = fd
    · have hopen := hfresh fd (by rw [hone, hfd]; exact List.mem_singleton_self fd)
      have haccount := htracked.accounted fd
      rw [hone, hfd, List.count_singleton_self] at hturn
      omega
    · rw [hone, List.count_singleton, if_neg (by simpa using hfd)] at hturn
      omega

theorem Tracked.apart {w : Sockets P N} (h : Tracked w) (hsingle : ∀ fd, (w.state.holders fd).card ≤ 1) : Apart w where
  apart i j fd hi hj := Finset.card_le_one.mp (hsingle fd) i (mem_holders.mpr hi) j (mem_holders.mpr hj)
  opened p hp hop := by
    have hslot := (h.consistent.pending p hp).onClient hop
    have hpos := Finset.card_pos.mpr ⟨p.slot, mem_holders.mpr hslot⟩
    have hle := hsingle (w.state.pool p.slot).clientFd
    have haccount := h.accounted (w.state.pool p.slot).clientFd
    omega

theorem holders_start {s : State P N} (hs : (State.start : Except Stop (State P N)) = .ok s) (fd : Int) :
    (s.holders fd).card = 0 := by
  have haccount := (tracked_start hs).accounted fd
  change 0 = (s.holders fd).card + 0 at haccount
  omega

/-- **Where the kernel gives no descriptor that is open**, no two slots ever have one
descriptor, and every read, write and close was submitted for one that is open. -/
theorem sockets_apart {s : State P N} (hs : (State.start : Except Stop (State P N)) = .ok s) (inputs : List Input)
    (h : EachStep Sockets.step GivesFresh (Sockets.start s) inputs) :
    Throughout Sockets.step Apart (Sockets.start s) inputs := by
  have hstart : Tracked (Sockets.start s) ∧ ∀ fd, ((Sockets.start s).state.holders fd).card ≤ 1 :=
    ⟨tracked_start hs, fun fd => (holders_start hs fd).trans_le (Nat.zero_le 1)⟩
  exact (throughout_of_steps (fun _ _ _ => single_step) hstart h).mono fun w hw => hw.1.apart hw.2

/-! ### A server at rest -/

theorem AtRest.holders {s : State P N} (h : AtRest s) (hs : Consistent s []) (fd : Int) :
    (s.holders fd).card = 0 := by
  obtain ⟨i, hpending, hother⟩ := h.accept
  rw [Finset.card_eq_zero, Finset.eq_empty_iff_forall_notMem]
  intro j hj
  rw [mem_holders] at hj
  by_cases hji : j = i
  · have hslot : SlotFor .accept (s.pool i) :=
      hs.pending ⟨.accept, i⟩ (by rw [hpending]; exact List.mem_singleton_self _)
    rw [hji, show s.pool i = {ReqRes.zero with ring := true} from hslot] at hj
    cases hj
  · rw [hother j hji] at hj
    cases hj

/-- **A server that waits for nobody but a new client has closed every descriptor** that it
was given, as often as it was given it, in every run where every slot is handed on. -/
theorem sockets_closed (hN : 0 < N) {s : State P N} (hs : (State.start : Except Stop (State P N)) = .ok s)
    (inputs : List Input) (h : EachStep Sockets.step (fun w => HandsOn w.state) (Sockets.start s) inputs) :
    Throughout Sockets.step (fun w => (∀ p ∈ w.state.pending, p.op = .accept) →
      ∀ fd, w.given.count fd = w.closed.count fd) (Sockets.start s) inputs := by
  have hstep : ∀ (w : Sockets P N) input w', (Tracked w ∧ Working w.state ∧ Conserved w.state ∧ Accepting w.state) →
      HandsOn w.state input → w.step input = .ok w' →
        Tracked w' ∧ Working w'.state ∧ Conserved w'.state ∧ Accepting w'.state :=
    fun w input w' hw hC hs => ⟨tracked_step hw.1 hs, working_handsOn hw.2 hC (Sockets.step_ok hs).1⟩
  apply (throughout_of_steps hstep ⟨tracked_start hs, handsOn_start hs⟩ h).mono
  intro w ⟨htracked, hworking, hconserved, haccepting⟩ honly fd
  have hrest := hworking.atRest hN hconserved haccepting honly
  rw [htracked.accounted fd, hrest.holders htracked.consistent fd, Nat.zero_add]

/-- The client that asks for an extrato gets 5, and its connection is closed. -/
theorem extratoClient_sockets : ∃ (s : State 2 1) (w : Sockets 2 1), State.start = .ok s ∧
    run Sockets.step (Sockets.start s) extratoClient = .ok w ∧
      EachStep Sockets.step (fun w => HandsOn w.state) (Sockets.start s) extratoClient ∧
        EachStep Sockets.step GivesFresh (Sockets.start s) extratoClient ∧
          w.given = [5] ∧ ∀ p ∈ w.state.pending, p.op = .accept := by
  obtain ⟨s, hs, hrun⟩ := exists_of_map_ok (x := (State.start : Except Stop (State 2 1)))
    (f := fun s => (decide (EachStep Sockets.step (fun w => HandsOn w.state) (Sockets.start s) extratoClient),
      decide (EachStep Sockets.step GivesFresh (Sockets.start s) extratoClient),
      (run Sockets.step (Sockets.start s) extratoClient).map fun w : Sockets 2 1 =>
        (w.given, decide (∀ p ∈ w.state.pending, p.op = .accept))))
    (b := (true, true, .ok ([5], true))) (by decide +kernel)
  obtain ⟨hhands, hrest⟩ := Prod.mk.inj hrun
  obtain ⟨hfresh, hlast⟩ := Prod.mk.inj hrest
  obtain ⟨w, hw, hlast⟩ := exists_of_map_ok hlast
  obtain ⟨hgiven, honly⟩ := Prod.mk.inj hlast
  exact ⟨s, w, hs, hw, of_decide_eq_true hhands, of_decide_eq_true hfresh, hgiven, of_decide_eq_true honly⟩

theorem sockets_accounted_extratoClient : ∃ (s : State 2 1) (w : Sockets 2 1), State.start = .ok s ∧
    run Sockets.step (Sockets.start s) extratoClient = .ok w ∧ w.given = [5] ∧ Accounted w := by
  obtain ⟨s, w, hs, hw, _, _, hgiven, _⟩ := extratoClient_sockets
  exact ⟨s, w, hs, hw, hgiven, (sockets_accounted hs extratoClient).last hw⟩

theorem sockets_apart_extratoClient : ∃ (s : State 2 1) (w : Sockets 2 1), State.start = .ok s ∧
    run Sockets.step (Sockets.start s) extratoClient = .ok w ∧
      Throughout Sockets.step Apart (Sockets.start s) extratoClient := by
  obtain ⟨s, w, hs, hw, _, hfresh, _, _⟩ := extratoClient_sockets
  exact ⟨s, w, hs, hw, sockets_apart hs extratoClient hfresh⟩

theorem sockets_closed_extratoClient : ∃ (s : State 2 1) (w : Sockets 2 1), State.start = .ok s ∧
    run Sockets.step (Sockets.start s) extratoClient = .ok w ∧ w.given = [5] ∧
      ∀ fd, w.given.count fd = w.closed.count fd := by
  obtain ⟨s, w, hs, hw, hhands, _, hgiven, honly⟩ := extratoClient_sockets
  exact ⟨s, w, hs, hw, hgiven, (sockets_closed (by decide) hs extratoClient hhands).last hw honly⟩

end Rinha.Server
