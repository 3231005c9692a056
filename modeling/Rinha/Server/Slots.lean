import Rinha.Database.Commands
import Rinha.Library.Runs
import Rinha.Server.LoopProofs

/-! Whether every slot in use is in one place.

`Consistent` says a slot is in one place at most. It is in none when the operation
it was with has failed, or when it was queued behind an item that is not the last
one; it is in none for ever then. So the slots are conserved in exactly the runs
where neither happens. -/
namespace Rinha.Server
open Library Request Client Database

variable {P N : Nat}

/-- How many pending operations have the slot as their `user_data`. -/
def State.pendingOf (s : State P N) (i : Fin P) : Nat := (s.pending.map Pending.slot).count i

/-- How often the slot is queued. -/
def State.queuedOf (s : State P N) (i : Fin P) : Nat := s.queue.contents.count i

/-- A slot in use is with one pending operation or queued once, and not both; a
free slot is neither. -/
def Conserved (s : State P N) : Prop :=
  ∀ i, if (s.pool i).ring = true then
      (s.pendingOf i = 1 ∧ s.queuedOf i = 0) ∨ (s.pendingOf i = 0 ∧ s.queuedOf i = 1)
    else s.pendingOf i = 0 ∧ s.queuedOf i = 0

instance (s : State P N) : Decidable (Conserved s) := inferInstanceAs (Decidable (∀ _, _))

/-- The completed operation did not fail; and where it is the read of a request for
the database, `last` is the last item queued. -/
def HandsOn (s : State P N) : Input → Prop
  | .completes c _ => 0 ≤ c.result ∧
      ∀ p, s.pending[c.index]? = some p → p.op = .read →
        WantsDatabase (memcpy (s.pool p.slot).buffer c.data) → s.queue.LastIsFinal
  | .interrupted _ => True
  | .fails => True

/-! ### Places -/

theorem mem_places {s : State P N} {hand : List (Fin P)} {i : Fin P} :
    i ∈ s.places hand ↔ i ∈ s.pending.map Pending.slot ∨ i ∈ s.queue.contents ∨ i ∈ hand := by
  rw [State.places, List.mem_append, List.mem_append]

theorem Consistent.conserved_iff {s : State P N} (h : Consistent s []) : Conserved s ↔ Covered s [] := by
  have hcount : ∀ i, s.pendingOf i + s.queuedOf i = (s.places []).count i := by
    intro i
    rw [State.places, List.append_nil, List.count_append]
    rfl
  have hone : ∀ i, (s.places []).count i ≤ 1 := List.nodup_iff_count_le_one.mp h.nodup
  constructor
  · intro hs i hi
    have hplace := hs i
    rw [if_pos hi] at hplace
    have hsum := hcount i
    exact List.count_pos_iff.mp (by omega)
  · intro hs i
    have hsum := hcount i
    have hle := hone i
    by_cases hi : (s.pool i).ring = true
    · have hpos := List.count_pos_iff.mpr (hs i hi)
      rw [if_pos hi]
      omega
    · have hzero : (s.places []).count i = 0 :=
        List.count_eq_zero.mpr fun hmem => hi (h.ring_of_place hmem)
      rw [if_neg hi]
      omega

/-- A change that takes no place away, and gives a place to what it takes in use. -/
theorem Covered.move {s s' : State P N} {hand hand' : List (Fin P)} (h : Covered s hand)
    (hplaces : ∀ i, i ∈ s.places hand → i ∈ s'.places hand')
    (hring : ∀ i, (s'.pool i).ring = true → (s.pool i).ring = true ∨ i ∈ s'.places hand') :
    Covered s' hand' := fun i hi => (hring i hi).elim (fun hs => hplaces i (h i hs)) id

theorem covered_congr {s s' : State P N} {hand hand' : List (Fin P)}
    (hring : ∀ i, (s'.pool i).ring = (s.pool i).ring)
    (hplaces : ∀ i, i ∈ s'.places hand' ↔ i ∈ s.places hand) : Covered s' hand' ↔ Covered s hand := by
  unfold Covered
  simp only [hring, hplaces]

/-- One slot's change leaves the others in use or not. -/
theorem ring_update {pool : Fin P → ReqRes (Fin N)} {i j : Fin P} {r : ReqRes (Fin N)}
    (h : (Function.update pool i r j).ring = true) : (pool j).ring = true ∨ j = i := by
  by_cases hji : j = i
  · exact .inr hji
  · rw [Function.update_of_ne hji] at h
    exact .inl h

theorem ring_update_same {pool : Fin P → ReqRes (Fin N)} {i : Fin P} {r : ReqRes (Fin N)}
    (h : r.ring = (pool i).ring) (j : Fin P) : (Function.update pool i r j).ring = (pool j).ring := by
  by_cases hji : j = i
  · rw [hji, Function.update_self, h]
  · rw [Function.update_of_ne hji]

/-! ### The dispatch -/

/-- A dispatch moves slots from the queue to operations. -/
theorem covered_dispatch {s s' : State P N} (h : Consistent s []) {outcomes : Nat → Outcome}
    (hs : s.queuDispatch outcomes = .ok s') : Covered s' [] ↔ Covered s [] := by
  have hmoved : ∀ (t : State P N) (queue : Queue (Fin P)) (i : Fin P) (op : Op),
      t.queue.contents = i :: queue.contents → ∀ j,
      j ∈ (t.pending ++ [(⟨op, i⟩ : Pending P)]).map Pending.slot ++ (queue.contents ++ []) ↔ j ∈ t.places [] := by
    intro t queue i op hcons j
    rw [mem_places, hcons]
    simp only [List.map_append, List.map_cons, List.map_nil, List.mem_append, List.mem_cons,
      List.not_mem_nil, or_false]
    tauto
  have hkept : KeptByTurns fun (_ : Option (Fin N)) (t : State P N) => (Covered t [] ↔ Covered s []) := by
    refine ⟨fun c t queue ht hnil hnil' => ?_, fun c t queue i response _ ht hcons _ _ _ => ?_,
      fun c t queue i query o _ ht hcons _ _ => ?_⟩
    · rw [← ht]
      refine covered_congr (fun _ => rfl) fun j => ?_
      rw [mem_places, mem_places, hnil, hnil']
    · rw [← ht]
      refine covered_congr ?_ (hmoved t queue i .write hcons)
      exact ring_update_same (r := {declined (t.pool i) c response with lastEvent := .writing}) rfl
    · rw [← ht]
      have hturn : Covered (t.sendTurn queue i c query o) [] ↔ Covered t [] := by
        refine covered_congr ?_ (hmoved t queue i .dbRead hcons)
        exact ring_update_same (r := {engaged (t.pool i) c query with lastEvent := .dbResponding}) rfl
      rw [← hturn]
      unfold State.getDbconn
      split <;> exact Iff.rfl
  have hbegin : Covered s.getDbconn.2 [] ↔ Covered s [] := by
    unfold State.getDbconn
    split <;> exact Iff.rfl
  exact queuDispatch_keeps (Q := fun t => (Covered t [] ↔ Covered s [])) hkept (fun _ ht => ht)
    (fun _ _ ht => ht) h hbegin hs

/-! ### A completion -/

/-- A push leaves every slot in use in its place exactly when `last` was the last item. -/
theorem covered_queued {s t : State P N} {i : Fin P} {queue : Queue (Fin P)} {r : ReqRes (Fin N)}
    (hc : Consistent s [i]) (h : Covered s [i]) (hr : r.ring = true) (hpush : s.queue.queuPush i = .ok queue)
    (hpool : t.pool = Function.update s.pool i r) (hpending : t.pending = s.pending)
    (hqueue : t.queue = queue) : Covered t [] ↔ s.queue.LastIsFinal := by
  obtain ⟨queue', _, hpush', hsub, hfinal⟩ := push_contents hc.sound i
  rw [hpush] at hpush'
  cases hpush'
  obtain ⟨_, hnodup, hdisjoint⟩ := List.nodup_append.mp hc.nodup
  rw [hfinal]
  constructor
  · intro hcov
    refine hsub.eq_of_length_le (hnodup.subperm fun j hj => ?_).length_le
    -- Each of these slots is in use, so it has a place, and only the queue can be it.
    have hused : (t.pool j).ring = true := by
      rw [hpool]
      by_cases hji : j = i
      · rw [hji, Function.update_self]
        exact hr
      · rw [Function.update_of_ne hji]
        exact (hc.queued j ((List.mem_append.mp hj).resolve_right fun hmem => hji (List.mem_singleton.mp hmem))).ring
    have hplace := mem_places.mp (hcov j hused)
    rw [hpending, hqueue] at hplace
    exact (hplace.resolve_left fun hmem => hdisjoint j hmem j hj rfl).resolve_right List.not_mem_nil
  · intro hcontents
    refine h.move (fun k hk => ?_) fun k hk => ?_
    · rw [mem_places] at hk
      rw [mem_places, hpending, hqueue, hcontents, List.mem_append]
      tauto
    · rw [hpool] at hk
      refine .inl ((ring_update hk).elim id ?_)
      rintro rfl
      exact hc.hand k (List.mem_cons_self ..)

/-- The slot of the completed operation has its next place exactly when it was
handed on. -/
theorem covered_handled {s s' : State P N} {c : Completion} {p : Pending P}
    (hc : Consistent s [p.slot]) (h : Covered s [p.slot]) (hs : Handled s c p s')
    (hs' : Consistent s' []) : Covered s' [] ↔ 0 ≤ c.result ∧
      (p.op = .read → WantsDatabase (memcpy (s.pool p.slot).buffer c.data) → s.queue.LastIsFinal) := by
  have hring : (s.pool p.slot).ring = true := hc.hand p.slot (List.mem_cons_self ..)
  have hother : ∀ j, (s.pool j).ring = true → j ≠ p.slot → j ∈ s.places [] := by
    intro j hj hne
    have hmem := h j hj
    rw [mem_places, List.mem_singleton] at hmem
    rw [mem_places]
    tauto
  have hkept : ∀ {t : State P N} {op : Op}, t.queue = s.queue → t.pending = s.pending ++ [⟨op, p.slot⟩] →
      (∀ j, (t.pool j).ring = true → (s.pool j).ring = true ∨ j = p.slot) → Covered t [] := by
    intro t op hqueue hpending hpool
    refine h.move (fun j hj => ?_) fun j hj => (hpool j hj).imp_right fun heq => ?_
    · rw [mem_places, List.mem_singleton] at hj
      rw [mem_places, hqueue, hpending]
      simp only [List.map_append, List.map_cons, List.map_nil, List.mem_append, List.mem_singleton]
      tauto
    · rw [mem_places, hpending, heq]
      simp
  have hnotRead : ∀ {op : Op}, p.op = op → op ≠ .read → 0 ≤ c.result → 0 ≤ c.result ∧
      (p.op = .read → WantsDatabase (memcpy (s.pool p.slot).buffer c.data) → s.queue.LastIsFinal) :=
    fun hop hne hresult => ⟨hresult, fun hread => absurd (hop.symm.trans hread) hne⟩
  cases hs with
  | failed hresult =>
    refine ⟨fun hcov => ?_, fun hok => absurd hok.1 (not_le.mpr hresult)⟩
    have hplace := hcov p.slot hring
    rw [mem_places] at hplace
    rcases hplace with hmem | hmem | hmem
    · obtain ⟨q, hq, hslot⟩ := List.mem_map.mp hmem
      exact absurd hslot (hc.not_pending hq)
    · exact absurd rfl (hc.not_queued hmem)
    · cases hmem
  | accepted j hop hresult hfree hne =>
    refine ⟨fun _ => hnotRead hop (by decide) hresult, fun _ => ?_⟩
    refine h.move (fun k hk => ?_) fun k hk => ?_
    · rw [mem_places, List.mem_singleton] at hk
      rw [mem_places]
      simp only [List.map_append, List.map_cons, List.map_nil, List.mem_append, List.mem_singleton]
      tauto
    · rcases ring_update hk with hk | rfl
      · rcases ring_update hk with hk | rfl
        · exact .inl hk
        · exact .inl hring
      · refine .inr (mem_places.mpr (.inl ?_))
        simp
  | answered response r hop hresult hno hr hresponse =>
    refine ⟨fun _ => ⟨hresult, fun _ hwants => absurd ?_ hno⟩, fun _ => hkept rfl rfl fun _ => ring_update⟩
    rw [State.afterRead_buffer]
    exact hwants
  | queued queue r hop hresult hbuffer hr hpush =>
    have hwants : WantsDatabase (memcpy (s.pool p.slot).buffer c.data) := by
      rw [← State.afterRead_buffer, ← hbuffer]
      exact hr.waiting.wants
    have hqueued := covered_queued hc h hr.ring hpush (t := {s.afterRead p.slot c.data with
      pool := Function.update s.pool p.slot r, queue := queue}) rfl rfl rfl
    rw [hqueued]
    exact ⟨fun hfinal => ⟨hresult, fun _ _ => hfinal⟩, fun hok => hok.2 hop hwants⟩
  | replied d conn r handler hop hresult hhandler hdbconn hcall =>
    exact ⟨fun _ => hnotRead hop (by decide) hresult, fun _ => hkept rfl rfl fun _ => ring_update⟩
  | written hop hresult =>
    exact ⟨fun _ => hnotRead hop (by decide) hresult, fun _ => hkept rfl rfl fun _ => ring_update⟩
  | closed hop hresult =>
    refine ⟨fun _ => hnotRead hop (by decide) hresult, fun _ j hj => ?_⟩
    by_cases hjp : j = p.slot
    · rw [hjp] at hj
      simp [ReqRes.zero] at hj
    · exact hother j ((ring_update hj).resolve_right hjp) hjp

/-! ### Every run -/

theorem conserved_step {s s' : State P N} {input : Input} (h : Consistent s []) (hs : Conserved s)
    (hstep : s.step input = .ok s') : Conserved s' ↔ HandsOn s input := by
  have hcovered := h.conserved_iff.mp hs
  rw [(consistent_step h hstep).conserved_iff]
  rcases step_cases hstep with ⟨c, outcomes, t, rfl, ht, hdispatch⟩ | ⟨outcomes, rfl, hdispatch⟩
  · obtain ⟨p, hp, hslot, hcompleted, hhandled, hcons⟩ := handle_cases h ht
    have hhand : Covered (s.completed c.index) [p.slot] := by
      refine hcovered.move (fun i hi => ?_) fun _ hi => .inl hi
      rw [mem_places, ((pending_perm hp).map Pending.slot).mem_iff, List.map_cons, List.mem_cons] at hi
      rw [mem_places, List.mem_singleton]
      have hnil : i ∉ ([] : List (Fin P)) := List.not_mem_nil
      rcases hi with (hi | hi) | hi | hi
      · exact .inr (.inr hi)
      · exact .inl hi
      · exact .inr (.inl hi)
      · exact absurd hi hnil
    rw [covered_dispatch hcons hdispatch, covered_handled hcompleted hhand hhandled hcons]
    refine and_congr_right fun _ => ⟨fun hfinal q hq => ?_, fun hfinal => hfinal p hp⟩
    rw [hp] at hq
    cases hq
    exact hfinal
  · rw [covered_dispatch h hdispatch]
    exact ⟨fun _ => trivial, fun _ => hcovered⟩

theorem covered_start {s : State P N} (hs : (State.start : Except Stop (State P N)) = .ok s) :
    Covered s [] := by
  obtain ⟨i, t, outcomes, rfl, ht, hd⟩ := start_cases hs
  refine (covered_dispatch ht hd).mpr fun j hj => ?_
  rcases ring_update hj with hj | rfl
  · cases hj
  · exact mem_places.mpr (.inl (List.mem_singleton_self j))

/-- **The slots are conserved in exactly the runs where every slot is handed on.** -/
theorem conserved_iff_handsOn {s : State P N} (hs : (State.start : Except Stop (State P N)) = .ok s)
    (inputs : List Input) :
    Throughout State.step Conserved s inputs ↔ EachStep State.step HandsOn s inputs := by
  have hcons := consistent_start hs
  exact throughout_iff (I := fun s => Consistent s []) (fun s i t => consistent_step) (fun s i t => conserved_step)
    hcons (hcons.conserved_iff.mpr (covered_start hs))

/-! ### A client that is gone -/

/-- A completion. Where a reply is waited for it has come; commands are sent, and
each gets one value. -/
def done (index : Nat) (result : Int) (data : List UInt8) : Input :=
  .completes ⟨index, result, data, [⟨1, false⟩]⟩ fun _ => ⟨true, [oneValue (some (bytes "[]"))]⟩

def getPing : List UInt8 := bytes "GET /ping HTTP/1.1\r\n\r\n"

/-- A connection is accepted as 5, a ping is read, and its response cannot be
written: the peer has closed (-32). -/
def goneClient : List Input := [done 0 5 [], done 0 22 getPing, done 1 (-32) []]

/-- Its slot stays in use, with the connection open, and is in no place. -/
theorem slot_lost :
    ∃ s t : State 2 1, State.start = .ok s ∧ run State.step s goneClient = .ok t ∧
      (t.pool 0).ring = true ∧ (t.pool 0).clientFd = 5 ∧ t.pendingOf 0 = 0 ∧ t.queuedOf 0 = 0 ∧
        ¬ Throughout State.step Conserved s goneClient := by
  obtain ⟨s, t, hs, ht, hlost⟩ := exists_run_ok State.step (State.start : Except Stop (State 2 1)) goneClient
    (fun t => ((t.pool 0).ring, (t.pool 0).clientFd, t.pendingOf 0, t.queuedOf 0, decide (Conserved t)))
    (true, 5, 0, 0, false) (by decide +kernel)
  simp only [Prod.mk.injEq, decide_eq_false_iff_not] at hlost
  obtain ⟨hring, hfd, hpending, hqueued, hconserved⟩ := hlost
  exact ⟨s, t, hs, ht, hring, hfd, hpending, hqueued, fun h => hconserved (h.last ht)⟩

/-- The run of a client that reads its response. -/
def pingClient : List Input := [done 0 5 [], done 0 22 getPing, done 1 17 [], done 1 0 []]

theorem pingClient_runs : ∃ s t : State 2 1, State.start = .ok s ∧ run State.step s pingClient = .ok t := by
  obtain ⟨s, t, hs, ht, -⟩ := exists_run_ok State.step (State.start : Except Stop (State 2 1)) pingClient
    (fun t => t.pending.length) 1 (by decide +kernel)
  exact ⟨s, t, hs, ht⟩

theorem conserved_pingClient :
    ∃ s t : State 2 1, State.start = .ok s ∧ run State.step s pingClient = .ok t ∧
      (Throughout State.step Conserved s pingClient ↔ EachStep State.step HandsOn s pingClient) := by
  obtain ⟨s, t, hs, ht⟩ := pingClient_runs
  exact ⟨s, t, hs, ht, conserved_iff_handsOn hs pingClient⟩

end Rinha.Server
