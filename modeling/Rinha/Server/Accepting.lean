import Rinha.Server.Slots

/-! Whether the server still accepts connections.

An accept is submitted at the start and where an accepted connection is handled,
and nowhere else. A failed accept is not followed by another, so one is pending in
exactly the runs where none fails. -/
namespace Rinha.Server
open Library Request Client

variable {P N : Nat}

/-- How many accepts are pending. -/
def State.accepts (s : State P N) : Nat := s.pending.countP fun p => p.op = .accept

def Accepting (s : State P N) : Prop := s.accepts = 1

instance (s : State P N) : Decidable (Accepting s) := inferInstanceAs (Decidable (_ = _))

/-- The completed operation is not an accept that failed. -/
def AcceptSucceeds (s : State P N) : Input → Prop
  | .completes c _ => ∀ p, s.pending[c.index]? = some p → p.op = .accept → 0 ≤ c.result
  | .interrupted _ => True
  | .fails => True

/-- Taking an operation from the pending ones takes one accept, if it is one. -/
theorem accepts_completed {s : State P N} {k : Nat} {p : Pending P} (hp : s.pending[k]? = some p) :
    s.accepts = (s.completed k).accepts + if p.op = .accept then 1 else 0 := by
  unfold State.accepts State.completed
  rw [(pending_perm hp).countP_eq, List.countP_cons]
  simp only [decide_eq_true_eq]

/-- Another operation that is submitted is no accept. -/
theorem accepts_submit {s t : State P N} (op : Op) {i : Fin P} (hne : op ≠ .accept)
    (ht : t.pending = s.pending ++ [⟨op, i⟩]) : t.accepts = s.accepts := by
  unfold State.accepts
  rw [ht, List.countP_append, List.countP_singleton]
  simp [hne]

theorem accepts_dispatch {s s' : State P N} (h : Consistent s []) {outcomes : Nat → Outcome}
    (hs : s.queuDispatch outcomes = .ok s') : s'.accepts = s.accepts := by
  have hconn : ∀ t : State P N, t.getDbconn.2.accepts = t.accepts := by
    intro t
    unfold State.getDbconn
    split <;> rfl
  have hkept : KeptByTurns fun (_ : Option (Fin N)) (t : State P N) => t.accepts = s.accepts := by
    refine ⟨fun c t queue ht _ _ => ht, fun c t queue i response _ ht _ _ _ _ => ?_,
      fun c t queue i query o _ ht _ _ _ => ?_⟩
    · rw [← ht]
      exact accepts_submit .write (by decide) rfl
    · rw [hconn, ← ht]
      exact accepts_submit .dbRead (by decide) rfl
  exact queuDispatch_keeps (Q := fun t => t.accepts = s.accepts) hkept (fun _ ht => ht) (fun _ _ ht => ht) h
    (hconn s) hs

/-- A completion submits an accept where an accepted connection is handled. -/
theorem accepts_handled {s s' : State P N} {c : Completion} {p : Pending P} (hs : Handled s c p s') :
    s'.accepts = s.accepts + if p.op = .accept ∧ 0 ≤ c.result then 1 else 0 := by
  have hother : ∀ {op : Op}, p.op = op → op ≠ .accept →
      (if p.op = .accept ∧ 0 ≤ c.result then 1 else 0) = 0 := by
    intro op hop hne
    exact if_neg fun haccept => hne (hop.symm.trans haccept.1)
  cases hs with
  | failed hresult =>
    rw [if_neg fun haccept => absurd haccept.2 (not_le.mpr hresult)]
    rfl
  | accepted j hop hresult hfree hne =>
    rw [if_pos ⟨hop, hresult⟩]
    unfold State.accepts
    simp [List.countP_append]
  | answered response r hop hresult hno hr hresponse =>
    rw [hother hop (by decide)]
    exact accepts_submit (s := s) .write (by decide) rfl
  | queued queue r hop hresult hbuffer hr hpush =>
    rw [hother hop (by decide)]
    rfl
  | replied d conn r handler hop hresult hhandler hdbconn hcall =>
    rw [hother hop (by decide)]
    exact accepts_submit (s := s) .write (by decide) rfl
  | written hop hresult =>
    rw [hother hop (by decide)]
    exact accepts_submit (s := s) .close (by decide) rfl
  | closed hop hresult =>
    rw [hother hop (by decide)]
    rfl

theorem accepting_step {s s' : State P N} {input : Input} (h : Consistent s []) (hs : Accepting s)
    (hstep : s.step input = .ok s') : Accepting s' ↔ AcceptSucceeds s input := by
  unfold Accepting at hs ⊢
  rcases step_cases hstep with ⟨c, outcomes, t, rfl, ht, hdispatch⟩ | ⟨outcomes, rfl, hdispatch⟩
  · obtain ⟨p, hp, _, _, hhandled, hcons⟩ := handle_cases h ht
    have hbefore := accepts_completed hp
    rw [accepts_dispatch hcons hdispatch, accepts_handled hhandled]
    have hcondition : AcceptSucceeds s (.completes c outcomes) ↔ (p.op = .accept → 0 ≤ c.result) := by
      refine ⟨fun hall => hall p hp, fun hone q hq => ?_⟩
      rw [hp] at hq
      cases hq
      exact hone
    rw [hcondition]
    by_cases hop : p.op = .accept
    · rw [if_pos hop] at hbefore
      simp only [hop, true_and, forall_const]
      split <;> omega
    · rw [if_neg hop] at hbefore
      simp only [hop, false_and, if_false, false_implies, iff_true]
      omega
  · rw [accepts_dispatch h hdispatch]
    exact ⟨fun _ => trivial, fun _ => hs⟩

/-- **One accept is pending in exactly the runs where no accept fails.** -/
theorem accepting_iff_acceptSucceeds {s : State P N}
    (hs : (State.start : Except Stop (State P N)) = .ok s) (inputs : List Input) :
    Throughout State.step Accepting s inputs ↔ EachStep State.step AcceptSucceeds s inputs := by
  obtain ⟨i, t, outcomes, rfl, ht, hdispatch⟩ := start_cases hs
  refine throughout_iff (I := fun s => Consistent s []) (fun s i t => consistent_step) (fun s i t => accepting_step)
    (consistent_start hs) ?_
  unfold Accepting
  rw [accepts_dispatch ht hdispatch]
  rfl

/-! ### An accept that fails -/

/-- The first connection is gone before it is accepted (-103), and then nothing is pending. -/
theorem accepts_no_more :
    ∃ s t : State 2 1, State.start = .ok s ∧ run State.step s [done 0 (-103) []] = .ok t ∧
      t.pending = [] ∧ ¬ Throughout State.step Accepting s [done 0 (-103) []] := by
  obtain ⟨s, t, hs, ht, hpending⟩ := exists_run_ok State.step (State.start : Except Stop (State 2 1))
    [done 0 (-103) []] State.pending [] (by decide +kernel)
  refine ⟨s, t, hs, ht, hpending, fun h => ?_⟩
  have haccepting : t.accepts = 1 := h.last ht
  rw [State.accepts, hpending] at haccepting
  cases haccepting

theorem accepting_pingClient :
    ∃ s t : State 2 1, State.start = .ok s ∧ run State.step s pingClient = .ok t ∧
      (Throughout State.step Accepting s pingClient ↔ EachStep State.step AcceptSucceeds s pingClient) := by
  obtain ⟨s, t, hs, ht⟩ := pingClient_runs
  exact ⟨s, t, hs, ht, accepting_iff_acceptSucceeds hs pingClient⟩

end Rinha.Server
