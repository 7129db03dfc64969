import DurableQueue.Jobs.Lifecycle
import DurableQueue.Worker.Fleet

/-!
# Fencing

What a run may still do to its job.  The guard of an outcome names the process, not the claim, so
it fences off a run whose claim has ended unless its own process has claimed the job since.
-/

open Reasoning

namespace DurableQueue

/-- The row is under the claim that the run was started under. -/
def Fleet.isCurrent (s : Fleet) (r : Run) : Prop :=
  r.claim + 1 = (s.claimants r.job).length ∧
    ∃ x, s.jobs.row r.job = some x ∧ x.status = .running ∧ x.lockedBy = some r.worker

/-- The run whose outcome a step writes. -/
def FleetStep.outcomeOf : FleetStep → Option Run
  | .succeed r _ _ => some r
  | .fail r _ _ _ _ _ => some r
  | _ => none

/-- No outcome is written by a run whose process has claimed the job again. -/
def notReclaimed (s : Fleet) (a : FleetStep) : Prop :=
  ∀ r ∈ a.outcomeOf, r.worker ∉ (s.claimants r.job).drop (r.claim + 1)

instance (s : Fleet) (a : FleetStep) : Decidable (notReclaimed s a) :=
  inferInstanceAs (Decidable (∀ r ∈ a.outcomeOf, _))

/-- Rows and runs agree with the record of the claims. -/
structure Fleet.Recorded (s : Fleet) : Prop where
  holder : ∀ id x, s.jobs.row id = some x → x.status = .running →
    ∃ w, x.lockedBy = some w ∧ (s.claimants id).getLast? = some w
  claimed : ∀ r ∈ s.runs, (s.claimants r.job)[r.claim]? = some r.worker

-- A row that runs after a call has been claimed by it, or ran before under the same holder.
theorem RowChange.running_after {c : Call} {o : Option Job} {x' : Job}
    (h : RowChange c o (some x')) (hs : x'.status = .running) :
    (∃ w lease batch, c.op = .claimJobs w lease batch) ∨
      ∃ x, o = some x ∧ x.status = .running ∧ x'.lockedBy = x.lockedBy := by
  cases h with
  | same => exact Or.inr ⟨x', rfl, hs, rfl⟩
  | claimed hop hdue hfree => exact Or.inl ⟨_, _, _, hop⟩
  | extended hop hheld => exact Or.inr ⟨_, rfl, (Job.heldBy_iff.mp hheld).2, rfl⟩
  | failed hop hheld hfail =>
      rcases Job.failed_cases hfail with ⟨rfl, -⟩ | ⟨delay, -, rfl, -⟩ <;> cases hs
  | inserted | deadLettered | recovered | released | succeeded | retried => cases hs

namespace Fleet

variable {s : Fleet}

-- A call other than a claim keeps the holders of the running rows.
theorem Recorded.call (h : s.Recorded) {c : Call}
    (hc : ∀ w lease batch, c.op ≠ .claimJobs w lease batch) : (s.call c).Recorded where
  claimed := h.claimed
  holder id x' hx' hs' := by
    have hchange := c.run_row s.jobs id
    rw [show (c.run s.jobs).row id = some x' from hx'] at hchange
    rcases hchange.running_after hs' with ⟨w, lease, batch, hop⟩ | ⟨x, hx, hs, hw⟩
    · exact absurd hop (hc w lease batch)
    · obtain ⟨w, hxw, hlast⟩ := h.holder id x hx hs
      exact ⟨w, hw.trans hxw, hlast⟩

-- A claim writes itself down.
theorem Recorded.claim (h : s.Recorded) (ctx : Ctx) (w : WorkerId) (lease : Int) (batch : Nat)
    (seen : Bool) : (s.claim ctx w lease batch seen).Recorded where
  holder id x hx hs := by
    simp only [Fleet.claim] at hx ⊢
    rcases Jobs.claimJobs_returned s.jobs id ctx w lease batch with
      ⟨hid, hsame⟩ | ⟨hid, r, -, -, -, hnew⟩
    · rw [if_neg hid]
      exact h.holder id x (hsame.symm.trans hx) hs
    · obtain rfl := Option.some.inj (hnew.symm.trans hx)
      rw [if_pos hid, List.getLast?_append_cons]
      exact ⟨w, rfl, rfl⟩
  claimed r hr := by
    have hold (hrs : r ∈ s.runs) (l : List WorkerId) :
        (s.claimants r.job ++ l)[r.claim]? = some r.worker := by
      have hclaimed := h.claimed r hrs
      rw [List.getElem?_append_left (List.getElem?_eq_some_iff.mp hclaimed).1]
      exact hclaimed
    have hcase : r ∈ s.runs ∨ ∃ id ∈ (s.jobs.claimJobs ctx w lease batch).2.map (·.1),
        r = ⟨w, id, (s.claimants id).length, .claimed⟩ := by
      simp only [Fleet.claim] at hr
      cases seen with
      | false => exact Or.inl hr
      | true =>
          rcases List.mem_append.mp hr with hr | hr
          · exact Or.inl hr
          · obtain ⟨id, hid, rfl⟩ := List.mem_map.mp hr
            exact Or.inr ⟨id, hid, rfl⟩
    simp only [Fleet.claim]
    rcases hcase with hrs | ⟨id, hid, rfl⟩
    · split
      · exact hold hrs [w]
      · have hkeep := hold hrs []
        rwa [List.append_nil] at hkeep
    · simp only [if_pos hid, List.getElem?_concat_length]

-- Runs may move along or go; the record stays.
theorem Recorded.of_runs {t : Fleet} (h : s.Recorded) (hj : t.jobs = s.jobs)
    (hc : t.claimants = s.claimants)
    (hr : ∀ r ∈ t.runs, ∃ x ∈ s.runs, r.worker = x.worker ∧ r.key = x.key) : t.Recorded where
  holder id x := by rw [hj, hc]; exact h.holder id x
  claimed r hrt := by
    obtain ⟨x, hx, hw, hk⟩ := hr r hrt
    have hclaimed := h.claimed x hx
    rw [hc, show r.job = x.job from congrArg Prod.fst hk,
      show r.claim = x.claim from congrArg Prod.snd hk, hw]
    exact hclaimed

theorem same_of_updateRows {p : Run → Bool} {phase : Phase} {r : Run}
    (h : r ∈ updateRows p ({ · with phase := phase }) s.runs) :
    ∃ x ∈ s.runs, r.worker = x.worker ∧ r.key = x.key := by
  obtain ⟨x, hx, ⟨-, rfl⟩ | ⟨-, rfl⟩⟩ := mem_updateRows h
  · exact ⟨x, hx, rfl, rfl⟩
  · exact ⟨r, hx, rfl, rfl⟩

theorem Recorded.setPhase (h : s.Recorded) (r : Run) (phase : Phase) :
    (s.setPhase r phase).Recorded :=
  h.of_runs rfl rfl fun _ hx ↦ same_of_updateRows hx

theorem Recorded.without (h : s.Recorded) (p : Run → Bool) : (s.without p).Recorded :=
  h.of_runs rfl rfl fun x hx ↦ ⟨x, (List.mem_filter.mp hx).1, rfl, rfl⟩

theorem Recorded.setDeadlines (h : s.Recorded) (w : WorkerId) (m : Deadlines) :
    (s.setDeadlines w m).Recorded :=
  h.of_runs rfl rfl fun x hx ↦ ⟨x, hx, rfl, rfl⟩

theorem Recorded.next (h : s.Recorded) {a : FleetStep} (ha : s.enabled a) :
    (s.next a).Recorded := by
  cases a with
  | call c =>
      refine h.call fun w lease batch hop ↦ ?_
      rw [show s.enabled (.call c) = (c.op.ofRun = false) from rfl, hop] at ha
      cases ha
  | claim ctx w lease batch seen => exact h.claim ctx w lease batch seen
  | hold w => exact h.of_runs (t := s.hold w) rfl rfl fun _ hx ↦ same_of_updateRows hx
  | take r => exact h.setPhase r _
  | start r monotonic maxExecution => exact (h.setPhase r _).setDeadlines _ _
  | raise r => exact h.setPhase r _
  | succeed r ctx seen => exact (h.call fun w lease batch hop ↦ by cases hop).setPhase r _
  | fail r ctx error permanent maxAttempts draw =>
      exact (h.call fun w lease batch hop ↦ by cases hop).setPhase r _
  | abandon r => exact h.setPhase r _
  | finish r => exact (h.without _).setDeadlines _ _
  | drain r => exact h.setPhase r _
  | letGo w => exact (h.without _).setDeadlines _ _
  | crash w => exact (h.without _).setDeadlines _ _

theorem recorded {s : Fleet} (h : fleet.Reachable s) : s.Recorded := by
  apply h.invariant
  · intro s hinit
    rw [hinit]
    refine ⟨fun id x hx ↦ ?_, fun r hr ↦ absurd hr List.not_mem_nil⟩
    cases hx
  · intro s a t hs hstep
    rw [hstep.2]
    exact hs.next hstep.1

end Fleet

/-! ## Outcomes -/

-- An outcome changes at most the row of the run's job, and that only while the process holds it.
theorem Call.run_outcome {c : Call} {t : Jobs} {job id : Nat} {w : WorkerId}
    (hop : c.op = .markSucceeded job w ∨ ∃ error permanent maxAttempts draw,
      c.op = .markFailed job w error permanent maxAttempts draw)
    (hne : (c.run t).row id ≠ t.row id) : id = job ∧ ∃ x, t.row id = some x ∧ x.heldBy w := by
  have h := c.run_row t id
  have hid {x : Job} (hx : t.row id = some x) : x.id = id := Jobs.row_id hx
  generalize t.row id = o at h hne hid
  generalize (c.run t).row id = o' at h hne
  have hother {op : JobOp} (hop' : c.op = op) (hs : ∀ j v, op ≠ .markSucceeded j v)
      (hf : ∀ j v e p m d, op ≠ .markFailed j v e p m d) : False := by
    rcases hop with hop | ⟨e, p, m, d, hop⟩
    · exact hs _ _ (hop'.symm.trans hop)
    · exact hf _ _ _ _ _ _ (hop'.symm.trans hop)
  cases h with
  | same => exact absurd rfl hne
  | inserted henq => rcases hop with hop | ⟨e, p, m, d, hop⟩ <;> rw [hop] at henq <;> cases henq
  | claimed hop' | deadLettered hop' | recovered hop' | released hop' | retried hop'
  | purged hop' => exact (hother hop' (by simp) (by simp)).elim
  | extended hop' hheld =>
      rcases hop' with hop' | ⟨ids, -, hop'⟩ <;> exact (hother hop' (by simp) (by simp)).elim
  | @succeeded x v hop' hheld =>
      rcases hop with hop | ⟨e, p, m, d, hop⟩
      · cases hop.symm.trans hop'
        exact ⟨(hid rfl).symm, x, rfl, hheld⟩
      · cases hop.symm.trans hop'
  | @failed x x' v error permanent maxAttempts draw hop' hheld hfail =>
      rcases hop with hop | ⟨e, p, m, d, hop⟩
      · cases hop.symm.trans hop'
      · cases hop.symm.trans hop'
        exact ⟨(hid rfl).symm, x, rfl, hheld⟩

/-- In a run in which no process claims a job again before its older run has written its outcome,
an outcome changes a row only if the row is still under the claim that its run was started under,
and no other row at all. -/
theorem outcome_fenced {s t : Fleet} {a : FleetStep} {r : Run}
    (h : (fleet.restrict notReclaimed).Reachable s) (ha : (fleet.restrict notReclaimed).step s a t)
    (hr : a.outcomeOf = some r) (id : Nat) (hne : t.jobs.row id ≠ s.jobs.row id) :
    id = r.job ∧ s.isCurrent r := by
  obtain ⟨hfirst, henabled, rfl⟩ := ha
  have hrec := Fleet.recorded h.of_restrict
  have hrow : id = r.job ∧ r ∈ s.runs ∧ ∃ x, s.jobs.row id = some x ∧ x.heldBy r.worker := by
    cases a with
    | succeed x ctx seen =>
        cases hr
        obtain ⟨hid, hheld⟩ := Call.run_outcome (Or.inl rfl) hne
        exact ⟨hid, henabled.1, hheld⟩
    | fail x ctx error permanent maxAttempts draw =>
        cases hr
        obtain ⟨hid, hheld⟩ := Call.run_outcome (Or.inr ⟨_, _, _, _, rfl⟩) hne
        exact ⟨hid, henabled.1, hheld⟩
    | _ => cases hr
  obtain ⟨rfl, hmem, x, hx, hheld⟩ := hrow
  obtain ⟨hw, hs⟩ := Job.heldBy_iff.mp hheld
  refine ⟨rfl, ?_, x, hx, hs, hw⟩
  -- the holder made the last claim, and of its claims the run's is the last
  obtain ⟨w, hxw, hlast⟩ := hrec.holder r.job x hx hs
  obtain rfl := Option.some.inj (hw.symm.trans hxw)
  have hclaimed := hrec.claimed r hmem
  have hlt := (List.getElem?_eq_some_iff.mp hclaimed).1
  by_contra hold
  have hdrop : ((s.claimants r.job).drop (r.claim + 1)).getLast? = some r.worker := by
    rw [List.getLast?_drop, if_neg (by omega)]
    exact hlast
  exact hfirst r hr (List.mem_of_getLast? hdrop)

/-- A run of job 1 in the process `w` while it executes. -/
def executingRun (claim : Nat) : Run := ⟨"w", 1, claim, .executing 300000000⟩

def claimAndStart (now : Int) (claim : Nat) : List FleetStep :=
  [.claim (.alone now) "w" 30 1 true, .hold "w", .take ⟨"w", 1, claim, .ready⟩,
    .start ⟨"w", 1, claim, .taken⟩ 0 300000000]

theorem outcome_fenced_first :
    ∃ s : Fleet, (fleet.restrict notReclaimed).Reachable s ∧ s.isCurrent (executingRun 0) := by
  refine ⟨_, System.reachable_restrict_of_play rfl
    (.call ⟨.alone 0, .enqueue "t" "" none⟩ :: claimAndStart 0 0) rfl, ?_⟩
  exact (outcome_fenced (System.reachable_restrict_of_play rfl
    (.call ⟨.alone 0, .enqueue "t" "" none⟩ :: claimAndStart 0 0) rfl)
    (a := .succeed (executingRun 0) (.alone 1000000) true) ⟨by decide, by decide, rfl⟩ rfl 1
    (by decide)).2

/-- A job that hangs in `w` past its lease is recovered, and `w` claims it again. -/
def reclaimedWhileRunning : List FleetStep :=
  .call ⟨.alone 0, .enqueue "t" "" none⟩ :: claimAndStart 0 0 ++
    .call ⟨.alone 31000000, .recoverExpired 100⟩ :: claimAndStart 31000000 1

/-- Then the older run's outcome ends the newer claim. -/
theorem outcome_unfenced :
    ∃ s : Fleet, fleet.Reachable s ∧ s.enabled (.succeed (executingRun 0) (.alone 32000000) true) ∧
      ¬ s.isCurrent (executingRun 0) ∧ s.isCurrent (executingRun 1) ∧
      ((s.next (.succeed (executingRun 0) (.alone 32000000) true)).jobs.row 1).map Job.status =
        some .succeeded := by
  refine ⟨_, (System.run_of_play reclaimedWhileRunning rfl).reachable (.init rfl),
    by decide, ?_, ?_, rfl⟩
  · intro h
    exact absurd h.1 (by decide)
  · exact ⟨rfl, _, rfl, rfl, rfl⟩

end DurableQueue
