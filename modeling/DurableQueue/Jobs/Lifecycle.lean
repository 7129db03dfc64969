import DurableQueue.Jobs.Calls
import DurableQueue.Reasoning.Runs

/-!
# The life of a row

The table as a transition system whose steps are the calls of `jobs.py`, in any order, with any
arguments and any clock readings.  What holds of every row in every reachable table, which changes
a call may make to a row, and that a job which is not finished can always be moved on.
-/

open Reasoning

namespace DurableQueue

/-- The jobs table under its calls, starting from a table that meets `init`. -/
def jobCallsFrom (init : Jobs → Prop) : System Jobs Call where
  init := init
  step t c u := u = c.run t

/-- The jobs table under its calls, starting empty. -/
def jobCalls : System Jobs Call := jobCallsFrom (· = Jobs.empty)

def runCalls : Jobs → List Call → Jobs
  | t, [] => t
  | t, c :: cs => runCalls (c.run t) cs

theorem runCalls_append (t : Jobs) (cs cs' : List Call) :
    runCalls t (cs ++ cs') = runCalls (runCalls t cs) cs' := by
  induction cs generalizing t with
  | nil => rfl
  | cons c cs ih => exact ih (c.run t)

theorem reachable_runCalls {init : Jobs → Prop} {t : Jobs} (h : (jobCallsFrom init).Reachable t)
    (cs : List Call) : (jobCallsFrom init).Reachable (runCalls t cs) := by
  induction cs generalizing t with
  | nil => exact h
  | cons c cs ih => exact ih (.step h rfl)

/-- What the columns of a row say about each other. -/
structure Job.Consistent (r : Job) : Prop where
  leased : r.status = .running → r.lockedBy.isSome ∧ r.lockedUntil.isSome
  unleased : r.status = .pending ∨ r.status = .dead → r.lockedBy = none ∧ r.lockedUntil = none
  finished : r.finishedAt.isSome ↔ r.status = .succeeded ∨ r.status = .dead

/-- The arrows of the life cycle. -/
inductive Status.Next : Status → Status → Prop where
  | claim : Next .pending .running
  | giveBack : Next .running .pending
  | succeed : Next .running .succeeded
  | giveUp : Next .running .dead
  | retry : Next .dead .pending

theorem Job.heldBy_iff {r : Job} {w : WorkerId} :
    r.heldBy w ↔ r.lockedBy = some w ∧ r.status = .running := by
  simp only [Job.heldBy, Bool.and_eq_true, decide_eq_true_eq]

theorem Job.due_iff {r : Job} {now : Int} : r.due now ↔ r.status = .pending ∧ r.runAt ≤ now := by
  simp only [Job.due, Bool.and_eq_true, decide_eq_true_eq]

theorem Job.expired_iff {r : Job} {now : Int} :
    r.expired now ↔ r.status = .running ∧ ∃ u, r.lockedUntil = some u ∧ u < now := by
  simp only [Job.expired, Bool.and_eq_true, decide_eq_true_eq, Option.any_eq_true]

theorem Job.finishedBefore_iff {r : Job} {t : Int} :
    r.finishedBefore t ↔
      (r.status = .succeeded ∨ r.status = .dead) ∧ ∃ u, r.finishedAt = some u ∧ u < t := by
  simp only [Job.finishedBefore, Bool.and_eq_true, Bool.or_eq_true, decide_eq_true_eq,
    Option.any_eq_true]

-- Both endings of `mark_failed`: the attempt is counted, and the job is buried or waits.
theorem Job.failed_cases {r r' : Job} {now : Int} {error : PyStr} {permanent : Bool}
    {maxAttempts : Option Int} {draw : Int}
    (h : r.failed now error permanent maxAttempts draw = some r') :
    (r' = SetClause.bury now error (SetClause.countFailure maxAttempts r) ∧
        (permanent = true ∨ maxAttempts.getD r.maxAttempts ≤ r.attempts + 1)) ∨
      ∃ delay, Jobs.computeBackoff (r.attempts + 1) draw = some delay ∧
        r' = SetClause.reschedule (now + delay) error (SetClause.countFailure maxAttempts r) ∧
        permanent = false ∧ r.attempts + 1 < maxAttempts.getD r.maxAttempts := by
  have hc : (permanent || decide ((SetClause.countFailure maxAttempts r).maxAttempts ≤
      (SetClause.countFailure maxAttempts r).attempts)) = true ↔
      permanent = true ∨ maxAttempts.getD r.maxAttempts ≤ r.attempts + 1 := by
    rw [Bool.or_eq_true, decide_eq_true_eq]
    exact Iff.rfl
  unfold Job.failed at h
  simp only at h
  split at h
  · cases h
  split at h
  · rename_i hlimit
    split at h
    · exact Or.inl ⟨(Option.some.inj h).symm, hc.mp hlimit⟩
    · cases h
  · rename_i hmore
    rw [hc, not_or, Bool.not_eq_true, not_le] at hmore
    cases hb : Jobs.computeBackoff (SetClause.countFailure maxAttempts r).attempts draw with
    | none => rw [hb] at h; cases h
    | some delay =>
        rw [hb] at h
        simp only at h
        split at h
        · exact Or.inr ⟨delay, hb, (Option.some.inj h).symm, hmore⟩
        · cases h

/-! ## What one call keeps -/

theorem RowChange.consistent {c : Call} {o o' : Option Job} (h : RowChange c o o')
    (ho : ∀ r, o = some r → r.Consistent) : ∀ r', o' = some r' → r'.Consistent := by
  intro r' hr'
  cases h with
  | same => exact ho r' hr'
  | inserted =>
      cases hr'
      exact ⟨by simp [Job.insert], by simp [Job.insert], by simp [Job.insert]⟩
  | @claimed r w lease batch hop hdue hfree =>
      cases hr'
      have hr := ho r rfl
      have hs := (Job.due_iff.mp hdue).1
      refine ⟨fun _ ↦ ⟨rfl, rfl⟩, by simp [SetClause.claim], ?_⟩
      have hn : r.finishedAt.isSome = false := by
        rw [← Bool.not_eq_true, hr.finished, hs]; simp
      simp [SetClause.claim, hn]
  | @extended r w lease hop hheld =>
      cases hr'
      have hr := ho r rfl
      obtain ⟨hw, hs⟩ := Job.heldBy_iff.mp hheld
      exact ⟨fun _ ↦ ⟨(hr.leased hs).1, rfl⟩, by simp [SetClause.extend, hs], hr.finished⟩
  | deadLettered =>
      cases hr'
      exact ⟨by simp [SetClause.deadLetter], by simp [SetClause.deadLetter],
        by simp [SetClause.deadLetter]⟩
  | @recovered r batch hop hexp hfree =>
      cases hr'
      have hf := (ho r rfl).finished
      rw [(Job.expired_iff.mp hexp).1] at hf
      exact ⟨by simp [SetClause.recover], by simp [SetClause.recover],
        by simpa [SetClause.recover] using hf⟩
  | @released r ids w hop hmem hheld =>
      cases hr'
      have hf := (ho r rfl).finished
      rw [(Job.heldBy_iff.mp hheld).2] at hf
      exact ⟨by simp [SetClause.release], by simp [SetClause.release],
        by simpa [SetClause.release] using hf⟩
  | succeeded =>
      cases hr'
      exact ⟨by simp [SetClause.succeed], by simp [SetClause.succeed], by simp [SetClause.succeed]⟩
  | @failed r _ w error permanent maxAttempts draw hop hheld hfail =>
      obtain rfl := Option.some.inj hr'
      have hf := (ho r rfl).finished
      rw [(Job.heldBy_iff.mp hheld).2] at hf
      rcases Job.failed_cases hfail with ⟨rfl, -⟩ | ⟨delay, -, rfl, -⟩
      · exact ⟨by simp [SetClause.bury], by simp [SetClause.bury], by simp [SetClause.bury]⟩
      · exact ⟨by simp [SetClause.reschedule], by simp [SetClause.reschedule],
          by simpa [SetClause.reschedule, SetClause.countFailure] using hf⟩
  | @retried r hop hdead =>
      cases hr'
      have hr := ho r rfl
      -- `retry_job` leaves the lease columns alone: a dead row has none
      exact ⟨by simp [SetClause.retry], fun _ ↦ hr.unleased (Or.inr hdead),
        by simp [SetClause.retry]⟩
  | purged => cases hr'

-- A row keeps what it was enqueued with, and moves along an arrow of the life cycle or not.
theorem RowChange.frame {c : Call} {r r' : Job} (h : RowChange c (some r) (some r')) :
    (r'.id = r.id ∧ r'.task = r.task ∧ r'.args = r.args ∧
        r'.idempotencyKey = r.idempotencyKey) ∧
      (r'.status = r.status ∨ Status.Next r.status r'.status) := by
  cases h with
  | same => exact ⟨⟨rfl, rfl, rfl, rfl⟩, Or.inl rfl⟩
  | claimed hop hdue hfree =>
      rw [(Job.due_iff.mp hdue).1]
      exact ⟨⟨rfl, rfl, rfl, rfl⟩, Or.inr .claim⟩
  | extended hop hheld => exact ⟨⟨rfl, rfl, rfl, rfl⟩, Or.inl rfl⟩
  | deadLettered hop hexp hpoison hfree =>
      rw [(Job.expired_iff.mp hexp).1]
      exact ⟨⟨rfl, rfl, rfl, rfl⟩, Or.inr .giveUp⟩
  | recovered hop hexp hfree =>
      rw [(Job.expired_iff.mp hexp).1]
      exact ⟨⟨rfl, rfl, rfl, rfl⟩, Or.inr .giveBack⟩
  | released hop hmem hheld =>
      rw [(Job.heldBy_iff.mp hheld).2]
      exact ⟨⟨rfl, rfl, rfl, rfl⟩, Or.inr .giveBack⟩
  | succeeded hop hheld =>
      rw [(Job.heldBy_iff.mp hheld).2]
      exact ⟨⟨rfl, rfl, rfl, rfl⟩, Or.inr .succeed⟩
  | failed hop hheld hfail =>
      rw [(Job.heldBy_iff.mp hheld).2]
      rcases Job.failed_cases hfail with ⟨rfl, -⟩ | ⟨delay, -, rfl, -⟩
      · exact ⟨⟨rfl, rfl, rfl, rfl⟩, Or.inr .giveUp⟩
      · exact ⟨⟨rfl, rfl, rfl, rfl⟩, Or.inr .giveBack⟩
  | retried hop hdead =>
      rw [hdead]
      exact ⟨⟨rfl, rfl, rfl, rfl⟩, Or.inr .retry⟩

theorem RowChange.gone {c : Call} {r : Job} (h : RowChange c (some r) none) :
    r.status = .succeeded ∨ r.status = .dead := by
  cases h with
  | purged hop hfin hfree => exact (Job.finishedBefore_iff.mp hfin).1

theorem jobCalls_consistent {t : Jobs} (h : jobCalls.Reachable t) :
    ∀ id r, t.row id = some r → r.Consistent := by
  induction h with
  | init h =>
      intro id r hr
      rw [h] at hr
      cases hr
  | @step t _ c _ hstep ih =>
      intro id
      rw [hstep]
      exact (c.run_row t id).consistent (ih id)

/-! ## Nothing is stranded -/

namespace Jobs

variable {t : Jobs} {ctx : Ctx} {r : Job} {batch : Nat}

/-- How many rows that a selection could take come before `r`. -/
def ahead (t : Jobs) (ctx : Ctx) (cand : Job → Bool) (before : Job → Job → Prop)
    [DecidableRel before] (r : Job) : Nat :=
  (t.rows.filter fun x ↦
    (cand x && !ctx.locked x.id) && decide (before x r) && decide (x ≠ r)).length

theorem mem_selectForUpdate_of_ahead {cand : Job → Bool} {before : Job → Job → Prop}
    [DecidableRel before] [Std.Total before] [IsTrans Job before] {limit : Nat}
    (hr : t.row r.id = some r) (hc : cand r) (hfree : ctx.locked r.id = false)
    (hahead : t.ahead ctx cand before r < limit) :
    r ∈ t.selectForUpdate ctx cand before limit :=
  mem_selectRows_of_rank t.rows_nodup (row_mem hr) (by rw [hc, hfree]; rfl) hahead

/-- A claim moves the due row it finds unlocked and within its batch. -/
theorem claimJobs_moves (w : WorkerId) (lease : Int) (hr : t.row r.id = some r)
    (hs : r.status = .pending) (hdue : r.runAt ≤ ctx.now) (hfree : ctx.locked r.id = false)
    (hahead : t.ahead ctx (·.due ctx.now) Job.claimOrder r < batch) :
    ((t.claimJobs ctx w lease batch).1.row r.id).map Job.status = some .running := by
  have hm : r ∈ t.claimable ctx batch :=
    mem_selectForUpdate_of_ahead hr (Job.due_iff.mpr ⟨hs, hdue⟩) hfree hahead
  simp only [claimJobs, row_updateIn_of_mem hr hm]
  rfl

/-- A sweep moves the expired row it finds unlocked and within the batch of its second UPDATE,
unless the first one has moved it already. -/
theorem reapExpiredJobs_moves {first second : Ctx} {u : Int} (hr : t.row r.id = some r)
    (hs : r.status = .running) (hu : r.lockedUntil = some u) (hexp : u < second.now)
    (hfree : second.locked r.id = false)
    (hahead : (t.deadLetterExpired first batch).1.ahead second (·.expired second.now)
      (Job.scanOrder second.rank) r < batch) :
    ((t.reapExpiredJobs first second batch).1.row r.id).map Job.status = some .pending ∨
      ((t.reapExpiredJobs first second batch).1.row r.id).map Job.status = some .dead := by
  simp only [reapExpiredJobs]
  rcases row_deadLetterExpired t r.id first batch with hkept | ⟨x, -, hx, hdead⟩
  · -- the row reaches the second UPDATE as it was
    left
    have hrow : (t.deadLetterExpired first batch).1.row r.id = some r := hkept.trans hr
    have hm : r ∈ (t.deadLetterExpired first batch).1.recoverable second batch :=
      mem_selectForUpdate_of_ahead hrow (Job.expired_iff.mpr ⟨hs, u, hu, hexp⟩) hfree hahead
    simp only [recoverExpired, row_updateIn_of_mem hrow hm]
    rfl
  · right
    rcases row_recoverExpired (t.deadLetterExpired first batch).1 r.id second batch with
      hkept | ⟨y, hy, hyr, -⟩
    · rw [hkept, hdead]
      rfl
    · -- a dead row is not one the second UPDATE selects
      obtain rfl := Option.some.inj (hdead.symm.trans hyr)
      have he := Job.expired_iff.mp (mem_selectForUpdate hy).2.1
      exact absurd he.1 (by simp [SetClause.deadLetter])

end Jobs

/-! ## The life cycle -/

/-- In every reachable table the rows are consistent; a call keeps the identity of each row and
moves it along an arrow; only finished rows disappear; and a claim or a sweep moves the job whose
time has come. -/
theorem jobs_lifecycle {t : Jobs} (h : jobCalls.Reachable t) :
    (∀ id r, t.row id = some r → r.Consistent) ∧
    (∀ (c : Call) id r r', t.row id = some r → (c.run t).row id = some r' →
      (r'.id = r.id ∧ r'.task = r.task ∧ r'.args = r.args ∧
          r'.idempotencyKey = r.idempotencyKey) ∧
        (r'.status = r.status ∨ Status.Next r.status r'.status)) ∧
    (∀ (c : Call) id r, t.row id = some r → (c.run t).row id = none →
      r.status = .succeeded ∨ r.status = .dead) ∧
    (∀ id r, t.row id = some r → r.status = .pending → ∀ (ctx : Ctx) w lease batch,
      r.runAt ≤ ctx.now → ctx.locked id = false →
      t.ahead ctx (·.due ctx.now) Job.claimOrder r < batch →
      ((t.claimJobs ctx w lease batch).1.row id).map Job.status = some .running) ∧
    (∀ id r, t.row id = some r → r.status = .running →
      ∃ u, r.lockedUntil = some u ∧ ∀ (first second : Ctx) batch,
        u < second.now → second.locked id = false →
        (t.deadLetterExpired first batch).1.ahead second (·.expired second.now)
          (Job.scanOrder second.rank) r < batch →
        ((t.reapExpiredJobs first second batch).1.row id).map Job.status = some .pending ∨
          ((t.reapExpiredJobs first second batch).1.row id).map Job.status = some .dead) := by
  have hcons := jobCalls_consistent h
  refine ⟨hcons, fun c id r r' hr hr' ↦ ?_, fun c id r hr hr' ↦ ?_, ?_, ?_⟩
  · have hc := c.run_row t id
    rw [hr, hr'] at hc
    exact hc.frame
  · have hc := c.run_row t id
    rw [hr, hr'] at hc
    exact hc.gone
  · intro id r hr hs ctx w lease batch hdue hfree hahead
    obtain rfl := Jobs.row_id hr
    exact Jobs.claimJobs_moves w lease hr hs hdue hfree hahead
  · intro id r hr hs
    obtain rfl := Jobs.row_id hr
    obtain ⟨u, hu⟩ := Option.isSome_iff_exists.mp ((hcons _ r hr).leased hs).2
    exact ⟨u, hu, fun first second batch hexp hfree hahead ↦
      Jobs.reapExpiredJobs_moves hr hs hu hexp hfree hahead⟩

def enqueuedAndClaimed : List Call :=
  [⟨.alone 0, .enqueue "t" "" none⟩, ⟨.alone 0, .claimJobs "w" 30 1⟩]

theorem jobs_lifecycle_claimed :
    ∃ r, (runCalls .empty enqueuedAndClaimed).row 1 = some r ∧ r.Consistent ∧
      r.lockedUntil = some 30000000 ∧
      (((runCalls .empty enqueuedAndClaimed).reapExpiredJobs (.alone 31000000) (.alone 31000000)
        100).1.row 1).map Job.status = some .pending := by
  have hreach : jobCalls.Reachable (runCalls .empty enqueuedAndClaimed) :=
    reachable_runCalls (.init (M := jobCalls) rfl) _
  obtain ⟨hcons, -, -, -, hswept⟩ := jobs_lifecycle hreach
  obtain ⟨u, hu, hmoves⟩ := hswept 1 _ rfl rfl
  obtain rfl := Option.some.inj hu
  refine ⟨_, rfl, hcons 1 _ rfl, rfl, ?_⟩
  exact (hmoves (.alone 31000000) (.alone 31000000) 100 (by decide) rfl (by decide)).resolve_right
    (by decide)

end DurableQueue
