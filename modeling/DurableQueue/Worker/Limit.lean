import DurableQueue.Worker.RunJob
import Mathlib.Algebra.Order.Ring.Int

/-!
# A task's attempt limit

One job of a task that fails every time, from its enqueue on: runs of any length in which every
failing run is one of `run_job`, and in between the table goes through any other calls.
-/

open Reasoning

namespace DurableQueue

/-- `min(max_seconds, base_seconds * 2**attempts)`. -/
def upperBound (attempts : Nat) : Int := min (seconds 300) (seconds (2 ^ attempts))

theorem upperBound_mono {a b : Nat} (h : a ≤ b) : upperBound a ≤ upperBound b := by
  have hpow : (2 : Int) ^ a ≤ 2 ^ b := pow_le_pow_right₀ (by decide) h
  unfold upperBound seconds
  omega

theorem Jobs.computeBackoff_le {attempts : Nat} {draw delay : Int}
    (h : computeBackoff attempts draw = some delay) : 0 ≤ delay ∧ delay ≤ upperBound attempts := by
  unfold computeBackoff at h
  split at h
  · cases h
  · obtain rfl := Option.some.inj h
    have hpow : (0 : Int) < 2 ^ attempts := pow_pos (by decide) attempts
    unfold upperBound seconds
    omega

/-- Declared with `@task(max_attempts=limit)`, it raises an ordinary exception whenever it runs:
none that speaks to `run_job` or to the transaction, and with a text that can be recorded. -/
def AlwaysFails {δ : Type} (registered : RegisteredTask δ) (limit : Int) : Prop :=
  registered.maxAttempts = some limit ∧
    ∀ args db, ∃ exc error, (registered.fn args db).2 = .raised exc ∧ exc.ordinary = true ∧
      exc.leaseLost = false ∧ exc.permanent = false ∧
      (registered.wantsConnection = true → exc.rollback = false) ∧
      exc.str = .ok error ∧ Jobs.recordable error = true

/-- The database, and how many runs of the job have failed. -/
structure Trial (δ : Type) where
  db : Database δ
  failures : Nat

inductive TrialAct (δ : Type) where
  | call (c : Call) (data : δ)
  | run (e : Surroundings δ) (workerId : WorkerId)

/-- A call that neither finishes the job nor starts it over, as with workers that never crash and
operators that leave it alone. -/
def Bystander (jobId : Nat) (c : Call) (t : Jobs) : Prop :=
  match c.op with
  | .deadLetterExpired _ => (c.run t).row jobId = t.row jobId
  | .markSucceeded .. => (c.run t).row jobId = t.row jobId
  | .markFailed .. => (c.run t).row jobId = t.row jobId
  | .retryJob _ => (c.run t).row jobId = t.row jobId
  | _ => True

/-- A failing run of a worker that holds the job throughout: while the task ran, others have at most
extended the lease. -/
inductive TrialStep {δ : Type} (registry : String → Option (RegisteredTask δ)) (job : ClaimedJob) :
    Trial δ → TrialAct δ → Trial δ → Prop where
  | call {s : Trial δ} {c : Call} {data : δ} (hc : Bystander job.id c s.db.jobs) :
      TrialStep registry job s (.call c data) { s with db := ⟨c.run s.db.jobs, data⟩ }
  | run {s : Trial δ} {e : Surroundings δ} {w : WorkerId} {r : Job} {exc : PyException}
      {maxAttempts : Option Int} {before : Database δ}
      (hr : s.db.jobs.row job.id = some r) (hheld : r.heldBy w)
      (hfailure : failure registry e s.db job = some (exc, maxAttempts, before))
      (hkept : ∃ lease, before.jobs.row job.id = some { r with lockedUntil := lease }) :
      TrialStep registry job s (.run e w) ⟨(runJob registry e s.db job w).1, s.failures + 1⟩

/-- The job has just been enqueued. -/
def trial {δ : Type} (registry : String → Option (RegisteredTask δ)) (job : ClaimedJob) :
    System (Trial δ) (TrialAct δ) where
  init s := s.failures = 0 ∧
    ∃ r, s.db.jobs.row job.id = some r ∧ r.status = .pending ∧ r.attempts = 0
  step := TrialStep registry job

/-- What the row says after `failures` failing runs, until it is purged. -/
structure Counts (limit : Int) (o : Option Job) (failures : Nat) : Prop where
  attempts : ∀ r, o = some r → r.attempts = failures
  waits : (failures : Int) < limit → ∃ r, o = some r ∧ (r.status = .pending ∨ r.status = .running)
  dies : limit ≤ failures → failures = limit ∧ ∀ r, o = some r → r.status = .dead

/-- How a failing run ends. -/
structure Retried (limit now : Int) (exit : Exit) (o : Option Job) (failures : Nat) : Prop where
  exit : exit = .returned
  row : ∃ r, o = some r ∧ r.attempts = failures ∧ r.lockedBy = none ∧ r.lockedUntil = none ∧
    if (failures : Int) < limit then
      r.status = .pending ∧ now ≤ r.runAt ∧ r.runAt ≤ now + upperBound failures
    else r.status = .dead

/-- For every job of every task that fails every time. -/
structure LimitHonoured (limit : Int) : Prop where
  bound : ∀ a b, a ≤ b → upperBound a ≤ upperBound b
  runs : ∀ (δ : Type) (registry : String → Option (RegisteredTask δ)) (job : ClaimedJob)
    (registered : RegisteredTask δ), registry job.task = some registered →
    AlwaysFails registered limit → ∀ s, (trial registry job).Reachable s →
      Counts limit (s.db.jobs.row job.id) s.failures ∧
        ∀ e w t, (trial registry job).step s (.run e w) t →
          Retried limit e.failed.now (runJob registry e s.db job w).2 (t.db.jobs.row job.id)
            t.failures

/-! ## Between the runs -/

theorem Bystander.keeps {c : Call} {u : Jobs} {jobId : Nat} {r r' : Job}
    (h : Bystander jobId c u) (hr : u.row jobId = some r) (hr' : (c.run u).row jobId = some r') :
    r'.attempts = r.attempts ∧
      (r.status = .pending ∨ r.status = .running → r'.status = .pending ∨ r'.status = .running) ∧
      (r.status = .dead → r'.status = .dead) := by
  have hrow := c.run_row u jobId
  have hkept (hsame : (c.run u).row jobId = u.row jobId) : r' = r := by
    rw [hr, hr'] at hsame
    exact Option.some.inj hsame
  rw [hr, hr'] at hrow
  unfold Bystander at h
  cases hrow with
  | same => exact ⟨rfl, id, id⟩
  | claimed hop hdue hfree =>
      have hpending := (Job.due_iff.mp hdue).1
      exact ⟨rfl, fun _ ↦ Or.inr rfl, fun hdead ↦ absurd (hpending.symm.trans hdead) nofun⟩
  | extended => exact ⟨rfl, id, id⟩
  | recovered hop hexp hfree =>
      have hrunning := (Job.expired_iff.mp hexp).1
      exact ⟨rfl, fun _ ↦ Or.inl rfl, fun hdead ↦ absurd (hrunning.symm.trans hdead) nofun⟩
  | released hop hmem hheld =>
      have hrunning := (Job.heldBy_iff.mp hheld).2
      exact ⟨rfl, fun _ ↦ Or.inl rfl, fun hdead ↦ absurd (hrunning.symm.trans hdead) nofun⟩
  | deadLettered hop | succeeded hop | failed hop | retried hop =>
      rw [hop] at h
      rw [hkept h]
      exact ⟨rfl, id, id⟩

section Runs

variable {δ : Type} {registry : String → Option (RegisteredTask δ)} {job : ClaimedJob}
  {registered : RegisteredTask δ} {limit : Int} {s t : Trial δ} {e : Surroundings δ} {w : WorkerId}

theorem Counts.call {c : Call} {u : Jobs} {id n : Nat} (h : Counts limit (u.row id) n)
    (hid : id < u.nextId) (hc : Bystander id c u) : Counts limit ((c.run u).row id) n := by
  cases hr : u.row id with
  | none =>
      have hgone := (c.run_of_lt hid).2 hr
      rw [hgone, ← hr]
      exact h
  | some r =>
      refine ⟨fun r' hr' ↦ ?_, fun hless ↦ ?_, fun hreached ↦ ?_⟩
      · rw [(hc.keeps hr hr').1]
        exact h.attempts r hr
      · obtain ⟨x, hx, hlive⟩ := h.waits hless
        obtain rfl := Option.some.inj (hr.symm.trans hx)
        cases hr' : (c.run u).row id with
        | none =>
            -- only a finished job is purged
            have hgone := c.run_row u id
            rw [hr, hr'] at hgone
            rcases hgone.gone with hsucceeded | hdead
            · rw [hsucceeded] at hlive
              exact absurd hlive (by decide)
            · rw [hdead] at hlive
              exact absurd hlive (by decide)
        | some r' => exact ⟨r', rfl, (hc.keeps hr hr').2.1 hlive⟩
      · obtain ⟨heq, hdead⟩ := h.dies hreached
        exact ⟨heq, fun r' hr' ↦ (hc.keeps hr hr').2.2 (hdead r hr)⟩

/-! ## One failing run -/

-- What the `except` clauses see.
theorem failure_of_alwaysFails {exc : PyException} {maxAttempts : Option Int}
    {before : Database δ} (hregistered : registry job.task = some registered)
    (hfails : AlwaysFails registered limit)
    (hfailure : failure registry e s.db job = some (exc, maxAttempts, before)) :
    maxAttempts = some limit ∧ ∃ error,
      runJob registry e s.db job w = handleException e before job w exc maxAttempts ∧
      exc.ordinary = true ∧ exc.leaseLost = false ∧ exc.permanent = false ∧
      exc.str = .ok error ∧ Jobs.recordable error = true := by
  obtain ⟨hlimit, hraises⟩ := hfails
  obtain ⟨exc', error, hending, hordinary, hlost, hpermanent, hrollback, hstr, hrec⟩ :=
    hraises job.args s.db
  have hseen := hfailure
  unfold failure at hseen
  rw [hregistered] at hseen
  simp only [hending, Option.some.injEq, Prod.mk.injEq] at hseen
  obtain ⟨rfl, rfl, -⟩ := hseen
  refine ⟨hlimit, error, ?_, hordinary, hlost, hpermanent, hstr, hrec⟩
  rcases runJob_of_failure hfailure w with ⟨hrun, -⟩ | ⟨-, ⟨registered', hsome, hconn⟩, hrolled⟩
  · exact hrun
  · obtain rfl := Option.some.inj (hregistered.symm.trans hsome)
    rw [hrollback hconn] at hrolled
    cases hrolled

/-- A failing run is recorded if its backoff can be computed, or if it is the last. -/
theorem retried_of_run (hregistered : registry job.task = some registered)
    (hfails : AlwaysFails registered limit) (hfits : fitsInt limit = true) {r : Job}
    {exc : PyException} {maxAttempts : Option Int} {before : Database δ}
    (hcount : r.attempts = s.failures) (hless : (s.failures : Int) < limit) (hheld : r.heldBy w)
    (hfailure : failure registry e s.db job = some (exc, maxAttempts, before))
    (hr : before.jobs.row job.id = some r)
    (hbackoff : limit ≤ s.failures + 1 ∨ s.failures + 1 < 1024) :
    Retried limit e.failed.now (runJob registry e s.db job w).2
      ((runJob registry e s.db job w).1.jobs.row job.id) (s.failures + 1) := by
  obtain ⟨rfl, error, hrun, hordinary, hlost, hpermanent, hstr, hrec⟩ :=
    failure_of_alwaysFails (w := w) hregistered hfails hfailure
  have hcolumn : fitsInt (r.attempts + 1) = true ∧ (some limit).all fitsInt = true := by
    refine ⟨?_, hfits⟩
    unfold fitsInt at hfits ⊢
    rw [decide_eq_true_eq] at hfits ⊢
    omega
  have hsome := (Job.failed_isSome_iff r e.failed.now error exc.permanent (some limit) e.draw).mpr
    ⟨hrec, hcolumn, Or.inr (by rw [hcount]; exact hbackoff)⟩
  rw [hrun]
  unfold handleException
  rw [hordinary, hlost, hstr]
  rcases markFailed_cases e.failed error exc.permanent (some limit) e.draw hr hheld
    with ⟨-, hnone⟩ | ⟨u, b, r', hu, hfailed, hrow⟩
  · obtain ⟨r', hr'⟩ := hsome
    rw [hnone] at hr'
    cases hr'
  · simp only [hu, Bool.not_true, Bool.false_eq_true, if_false]
    refine ⟨rfl, r', hrow, ?_⟩
    rcases Job.failed_cases hfailed with ⟨rfl, hlimit⟩ | ⟨delay, hdelay, rfl, -, hmore⟩
    · refine ⟨congrArg (· + 1) hcount, rfl, rfl, ?_⟩
      rw [hpermanent, Option.getD_some, hcount] at hlimit
      have hlimit := hlimit.resolve_left Bool.false_ne_true
      rw [if_neg (by push_cast; omega)]
      rfl
    · obtain ⟨hnonneg, hle⟩ := Jobs.computeBackoff_le hdelay
      refine ⟨congrArg (· + 1) hcount, rfl, rfl, ?_⟩
      rw [Option.getD_some, hcount] at hmore
      rw [if_pos (by push_cast; exact hmore), ← hcount]
      refine ⟨rfl, ?_, ?_⟩
      · change e.failed.now ≤ e.failed.now + delay
        omega
      · change e.failed.now + delay ≤ e.failed.now + upperBound (r.attempts + 1)
        omega

theorem Retried.counts {now : Int} {exit : Exit} {o : Option Job} {n : Nat}
    (h : Retried limit now exit o n) (hle : (n : Int) ≤ limit) : Counts limit o n := by
  obtain ⟨-, r, rfl, hcount, -, -, hend⟩ := h
  refine ⟨fun x hx ↦ Option.some.inj hx ▸ hcount, fun hless ↦ ?_, fun hreached ↦ ?_⟩
  · rw [if_pos hless] at hend
    exact ⟨r, rfl, Or.inl hend.1⟩
  · rw [if_neg (by omega)] at hend
    exact ⟨by omega, fun x hx ↦ Option.some.inj hx ▸ hend⟩

/-! ## All runs -/

structure TrialInv (jobId : Nat) (limit : Int) (s : Trial δ) : Prop where
  counts : Counts limit (s.db.jobs.row jobId) s.failures
  drawn : jobId < s.db.jobs.nextId

-- A job that is held has failures left.
theorem Counts.less {r : Job} {n : Nat} (h : Counts limit (some r) n) (hheld : r.heldBy w) :
    (n : Int) < limit := by
  by_contra hreached
  have hdead := (h.dies (by omega)).2 r rfl
  rw [(Job.heldBy_iff.mp hheld).2] at hdead
  cases hdead

theorem TrialInv.retried (h : TrialInv job.id limit s)
    (hregistered : registry job.task = some registered) (hfails : AlwaysFails registered limit)
    (hfits : fitsInt limit = true) (hlimit : limit ≤ 1024)
    (ha : TrialStep registry job s (.run e w) t) :
    (t.failures : Int) ≤ limit ∧
      Retried limit e.failed.now (runJob registry e s.db job w).2 (t.db.jobs.row job.id)
        t.failures := by
  cases ha with
  | @run _ _ r exc maxAttempts before hr hheld hfailure hkept =>
      obtain ⟨lease, hbefore⟩ := hkept
      have hcounts := hr ▸ h.counts
      have hless := hcounts.less hheld
      have hcount : ({ r with lockedUntil := lease } : Job).attempts = s.failures :=
        hcounts.attempts r rfl
      refine ⟨?_, retried_of_run hregistered hfails hfits hcount hless hheld hfailure hbefore
        (by omega)⟩
      push_cast
      omega

theorem TrialInv.step {a : TrialAct δ} (h : TrialInv job.id limit s)
    (hregistered : registry job.task = some registered) (hfails : AlwaysFails registered limit)
    (hfits : fitsInt limit = true) (hlimit : limit ≤ 1024) (ha : TrialStep registry job s a t) :
    TrialInv job.id limit t := by
  cases a with
  | call c data =>
      cases ha with
      | call hc => exact ⟨h.counts.call h.drawn hc, (c.run_of_lt h.drawn).1⟩
  | run e w =>
      obtain ⟨hle, hretried⟩ := h.retried hregistered hfails hfits hlimit ha
      obtain ⟨r, hr, -⟩ := hretried.row
      exact ⟨hretried.counts hle, Jobs.row_lt hr⟩

theorem trialInv_of_reachable (hregistered : registry job.task = some registered)
    (hfails : AlwaysFails registered limit) (hpos : 1 ≤ limit) (hfits : fitsInt limit = true)
    (hlimit : limit ≤ 1024) (hs : (trial registry job).Reachable s) : TrialInv job.id limit s := by
  refine hs.invariant ?_ fun _ _ _ h ha ↦ h.step hregistered hfails hfits hlimit ha
  rintro s ⟨hzero, r, hr, hpending, hcount⟩
  refine ⟨⟨fun x hx ↦ ?_, fun _ ↦ ⟨r, hr, Or.inl hpending⟩, fun hreached ↦ ?_⟩, Jobs.row_lt hr⟩
  · rw [hr] at hx
    rw [← Option.some.inj hx, hcount, hzero]
  · omega

end Runs

theorem limitHonoured_of_le {limit : Int} (hpos : 1 ≤ limit) (hfits : fitsInt limit = true)
    (hlimit : limit ≤ 1024) : LimitHonoured limit where
  bound _ _ h := upperBound_mono h
  runs _ _ _ _ hregistered hfails _ hs := by
    have hinv := trialInv_of_reachable hregistered hfails hpos hfits hlimit hs
    exact ⟨hinv.counts,
      fun e w t ha ↦ (hinv.retried hregistered hfails hfits hlimit ha).2⟩

/-! ## Past the largest float -/

/-- A plain task that raises a `ValueError('boom')`, declared with a limit. -/
def booming (limit : Int) : RegisteredTask Unit :=
  { failing (toPyStr "boom") with maxAttempts := some limit }

theorem alwaysFails_booming (limit : Int) : AlwaysFails (booming limit) limit :=
  ⟨rfl, fun _ _ ↦ ⟨_, toPyStr "boom", rfl, rfl, rfl, rfl, fun _ ↦ rfl, rfl, by decide⟩⟩

def boomingRegistry (limit : Int) : String → Option (RegisteredTask Unit) :=
  fun _ ↦ some (booming limit)

def boomingJob : ClaimedJob := ⟨1, "t", "{}"⟩

-- The job is claimed as soon as its time has come.
theorem exists_claimed {limit : Int} {s : Trial Unit} {r : Job}
    (hs : (trial (boomingRegistry limit) boomingJob).Reachable s) (hr : s.db.jobs.row 1 = some r)
    (hpending : r.status = .pending) :
    ∃ t : Trial Unit, (trial (boomingRegistry limit) boomingJob).Reachable t ∧
      t.failures = s.failures ∧
      ∃ r', t.db.jobs.row 1 = some r' ∧ r'.heldBy "w" = true ∧ r'.attempts = r.attempts := by
  have hid := Jobs.row_id hr
  let ctx := Ctx.alone r.runAt
  let batch := s.db.jobs.ahead ctx (·.due ctx.now) Job.claimOrder r + 1
  let c : Call := ⟨ctx, .claimJobs "w" 30 batch⟩
  have hmem : r ∈ s.db.jobs.claimable ctx batch :=
    Jobs.mem_selectForUpdate_of_ahead (hid ▸ hr) (Job.due_iff.mpr ⟨hpending, le_rfl⟩) rfl
      (Nat.lt_succ_self _)
  have hstep : TrialStep (boomingRegistry limit) boomingJob s (.call c ())
      { s with db := ⟨c.run s.db.jobs, ()⟩ } := .call trivial
  refine ⟨_, .step hs hstep, rfl, SetClause.claim "w" (r.runAt + seconds 30) r, ?_, ?_, rfl⟩
  · exact Jobs.row_updateIn_of_mem hr hmem _
  · exact Job.heldBy_iff.mpr ⟨rfl, rfl⟩

theorem failure_booming {limit : Int} (db : Database Unit) :
    failure (boomingRegistry limit) alone db boomingJob =
      some (⟨true, false, false, false, .ok (toPyStr "boom")⟩, some limit, db) := rfl

/-- The first 1023 failures are recorded, whatever the limit beyond. -/
theorem exists_failures {limit : Int} (hlarge : 1024 < limit) (hfits : fitsInt limit = true)
    {n : Nat} (hn : n ≤ 1023) :
    ∃ s : Trial Unit, (trial (boomingRegistry limit) boomingJob).Reachable s ∧ s.failures = n ∧
      ∃ r, s.db.jobs.row 1 = some r ∧ r.status = .pending ∧ r.attempts = n := by
  induction n with
  | zero =>
      let first : Trial Unit := ⟨⟨(Jobs.empty.enqueue "t" "{}" none 0).1, ()⟩, 0⟩
      exact ⟨first, .init ⟨rfl, _, rfl, rfl, rfl⟩, rfl, _, rfl, rfl, rfl⟩
  | succ n ih =>
      obtain ⟨s, hs, hfailures, r, hr, hpending, hcount⟩ := ih (by omega)
      obtain ⟨u, hu, hsame, r', hr', hheld, hcount'⟩ := exists_claimed hs hr hpending
      have hstep : TrialStep (boomingRegistry limit) boomingJob u (.run alone "w") _ :=
        .run hr' hheld (failure_booming u.db) ⟨r'.lockedUntil, hr'⟩
      obtain ⟨-, x, hx, hxcount, -, -, hend⟩ := retried_of_run rfl (alwaysFails_booming limit) hfits
        (by omega) (by omega) hheld (failure_booming u.db) hr' (Or.inr (by omega))
      rw [if_pos (by push_cast; omega)] at hend
      exact ⟨_, .step hu hstep, by rw [hsame, hfailures], x, hx, hend.1, by omega⟩

-- `compute_backoff` raises, and with it `mark_failed`.
theorem run_raises {limit : Int} {db : Database Unit} {r : Job} (hlarge : 1024 < limit)
    (hr : db.jobs.row boomingJob.id = some r) (hheld : r.heldBy "w" = true)
    (hcount : r.attempts = 1023) :
    (runJob (boomingRegistry limit) alone db boomingJob "w").2 = .raised true := by
  have hrun : runJob (boomingRegistry limit) alone db boomingJob "w" =
      handleException alone db boomingJob "w" ⟨true, false, false, false, .ok (toPyStr "boom")⟩
        (some limit) := rfl
  rw [hrun]
  unfold handleException
  rcases markFailed_cases alone.failed (toPyStr "boom") false (some limit) alone.draw hr hheld
    with ⟨hraised, -⟩ | ⟨u, b, r', -, hfailed, -⟩
  · simp only [hraised, Bool.not_true, Bool.false_eq_true, if_false]
  · obtain ⟨-, -, hbackoff⟩ := (Job.failed_isSome_iff ..).mp ⟨r', hfailed⟩
    rw [hcount, Option.getD_some] at hbackoff
    have hbackoff := hbackoff.resolve_left Bool.false_ne_true
    omega

theorem not_limitHonoured {limit : Int} (hlarge : 1024 < limit) (hfits : fitsInt limit = true) :
    ¬ LimitHonoured limit := by
  intro h
  obtain ⟨s, hs, -, r, hr, hpending, hcount⟩ := exists_failures hlarge hfits (Nat.le_refl 1023)
  obtain ⟨u, hu, -, r', hr', hheld, hcount'⟩ := exists_claimed hs hr hpending
  have hstep : TrialStep (boomingRegistry limit) boomingJob u (.run alone "w") _ :=
    .run hr' hheld (failure_booming u.db) ⟨r'.lockedUntil, hr'⟩
  obtain ⟨-, hruns⟩ := h.runs Unit _ boomingJob _ rfl (alwaysFails_booming limit) u hu
  have hreturned := (hruns alone "w" _ hstep).exit
  rw [run_raises hlarge hr' hheld (hcount'.trans hcount)] at hreturned
  cases hreturned

/-- A limit is honoured as long as `2.0 ** attempts` is a float for every failure before the
last. -/
theorem limitHonoured_iff {limit : Int} (hpos : 1 ≤ limit) (hfits : fitsInt limit = true) :
    LimitHonoured limit ↔ limit ≤ 1024 := by
  constructor
  · intro h
    by_contra hlarge
    exact not_limitHonoured (by omega) hfits h
  · exact limitHonoured_of_le hpos hfits

theorem limitHonoured_largest : LimitHonoured 1024 :=
  (limitHonoured_iff (by decide) (by decide)).mpr le_rfl

/-- With a limit of 1025, the failure after the first 1023 is lost. -/
theorem limit_lost :
    ¬ ∀ limit : Int, 1 ≤ limit → fitsInt limit = true → LimitHonoured limit := by
  intro h
  exact not_limitHonoured (by decide) (by decide) (h 1025 (by decide) (by decide))

end DurableQueue
