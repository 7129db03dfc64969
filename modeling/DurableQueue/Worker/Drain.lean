import DurableQueue.Worker.RunJob
import DurableQueue.Worker.Listening
import DurableQueue.Jobs.Durability
import DurableQueue.Reasoning.Loops
import DurableQueue.Reasoning.Potential

/-!
# One job after the other

`process_one` by itself: a loop that calls it for as long as it returns True ends, because each call
uses up one of the runs that the jobs in the queue have left.
-/

open Reasoning Finset

namespace DurableQueue

variable {δ : Type*}

/-- `process_one`: no result is False, and an exit that returns is True. -/
def processOne (registry : String → Option (RegisteredTask δ)) (workerId : WorkerId)
    (leaseSeconds : Int) (claim : Ctx) (e : Surroundings δ) (db : Database δ) :
    Database δ × Option Exit :=
  match db.jobs.claimNextJob claim workerId leaseSeconds with
  | (jobs, none) => ({ db with jobs := jobs }, none)
  | (jobs, some (id, task, args)) =>
      let (after, exit) := runJob registry e { db with jobs := jobs } ⟨id, task, args⟩ workerId
      (after, some exit)

/-- Its tasks leave the queue to the worker, and raise nothing that is meant for `run_job` or for
the transaction. -/
structure Polite (registry : String → Option (RegisteredTask δ)) : Prop where
  jobs : ∀ task registered, registry task = some registered → ∀ args db,
    (registered.fn args db).1.jobs = db.jobs
  raises : ∀ task registered, registry task = some registered → ∀ args db exc,
    (registered.fn args db).2 = .raised exc →
      exc.leaseLost = false ∧ (registered.wantsConnection = true → exc.rollback = false)

/-- The task's own limit, if it has one. -/
def ownLimit (registry : String → Option (RegisteredTask δ)) (r : Job) : Option Int :=
  (registry r.task).bind (·.maxAttempts)

/-- What a run that returns makes of the row of its job. -/
inductive Settled (registry : String → Option (RegisteredTask δ)) (r : Job) : Job → Prop where
  | succeeded (now : Int) : Settled registry r (SetClause.succeed now r)
  | failed {now : Int} {error : PyStr} {permanent : Bool} {draw : Int} {r' : Job}
      (h : r.failed now error permanent (ownLimit registry r) draw = some r') :
      Settled registry r r'

/-! ## What a call does to the rows -/

/-- `u` is `t` with another row for `id`. -/
def Jobs.Rewritten (t u : Jobs) (id : Nat) (r : Job) : Prop :=
  ∀ k, u.row k = if k = id then some r else t.row k

section Rows

variable {registry : String → Option (RegisteredTask δ)} {e : Surroundings δ} {db : Database δ}
  {job : ClaimedJob} {w : WorkerId} {r : Job} {lease : Int} {claim : Ctx}

theorem handleException_settles {exc : PyException} (hr : db.jobs.row job.id = some r)
    (hheld : r.heldBy w = true) (hlost : exc.leaseLost = false) :
    let (after, exit) := handleException e db job w exc (ownLimit registry r)
    (exit = .returned ∧ ∃ r', Settled registry r r' ∧ db.jobs.Rewritten after.jobs job.id r') ∨
      ∃ b, exit = .raised b ∧ after.jobs = db.jobs := by
  unfold handleException
  cases hord : exc.ordinary with
  | false => exact Or.inr ⟨false, rfl, rfl⟩
  | true =>
      simp only [Bool.not_true, Bool.false_eq_true, if_false, hlost]
      cases hstr : exc.str with
      | error ordinary => exact Or.inr ⟨ordinary, rfl, rfl⟩
      | ok error =>
          have hrows (id : Nat) := Jobs.markFailed_of_held e.failed error exc.permanent
            (ownLimit registry r) e.draw hr hheld id
          simp only
          cases hmarked : db.jobs.markFailed e.failed job.id w error exc.permanent
              (ownLimit registry r) e.draw with
          | none => exact Or.inr ⟨true, rfl, rfl⟩
          | some res =>
              cases hfailed : r.failed e.failed.now error exc.permanent (ownLimit registry r)
                  e.draw with
              | none =>
                  have hnone := hrows job.id
                  rw [hmarked, hfailed] at hnone
                  cases hnone
              | some r' =>
                  refine Or.inl ⟨rfl, r', .failed hfailed, fun k ↦ ?_⟩
                  have hrow := hrows k
                  rw [hmarked, hfailed] at hrow
                  exact Option.some.inj hrow

theorem completed_rewritten (db : Database δ) (ctx : Ctx) (hr : db.jobs.row job.id = some r)
    (hheld : r.heldBy w = true) :
    (db.jobs.markSucceeded ctx job.id w).2 = true ∧
      db.jobs.Rewritten (db.jobs.markSucceeded ctx job.id w).1 job.id
        (SetClause.succeed ctx.now r) := by
  constructor
  · change (db.jobs.row job.id).any (·.heldBy w) = true
    rw [hr, Option.any_some, hheld]
  · intro k
    by_cases hk : k = job.id
    · rw [if_pos hk, hk]
      exact Jobs.row_updateHeld_of_heldBy hr (List.mem_singleton_self _) hheld _
    · rw [if_neg hk]
      exact Jobs.row_updateHeld_of_not_heldBy
        (fun _ _ hmem ↦ absurd (List.mem_singleton.mp hmem) hk) _

theorem runJob_settles (job : ClaimedJob) (hpolite : Polite registry)
    (hmeanwhile : (e.meanwhile db).jobs = db.jobs) (htask : job.task = r.task)
    (hr : db.jobs.row job.id = some r) (hheld : r.heldBy w = true) :
    let (after, exit) := runJob registry e db job w
    (exit = .returned ∧ ∃ r', Settled registry r r' ∧ db.jobs.Rewritten after.jobs job.id r') ∨
      ∃ b, exit = .raised b ∧ after.jobs = db.jobs := by
  -- the `except` clauses find the queue as the task did
  have hcatch {before : Database δ} (exc : PyException) (hsame : before.jobs = db.jobs)
      (hlost : exc.leaseLost = false) :
      let (after, exit) := handleException e before job w exc (ownLimit registry r)
      (exit = .returned ∧ ∃ r', Settled registry r r' ∧ db.jobs.Rewritten after.jobs job.id r') ∨
        ∃ b, exit = .raised b ∧ after.jobs = db.jobs := by
    rw [← hsame]
    exact handleException_settles (hsame ▸ hr) hheld hlost
  cases hregistered : registry job.task with
  | none =>
      have hlimit : ownLimit registry r = none := by
        unfold ownLimit
        rw [← htask, hregistered]
        rfl
      rw [hlimit] at hcatch
      unfold runJob
      rw [hregistered]
      exact hcatch (notRegistered e.isprintable job.task) hmeanwhile rfl
  | some registered =>
      obtain ⟨fn, wantsConnection, maxAttempts⟩ := registered
      have hlimit : ownLimit registry r = maxAttempts := by
        unfold ownLimit
        rw [← htask, hregistered]
        rfl
      rw [hlimit] at hcatch
      have hinside := hpolite.jobs _ _ hregistered job.args db
      have hraises := hpolite.raises _ _ hregistered job.args db
      unfold runJob
      rw [hregistered]
      simp only at hinside hraises ⊢
      generalize fn job.args db = run at hinside hraises ⊢
      obtain ⟨inside, ending⟩ := run
      simp only at hinside hraises ⊢
      cases ending with
      | returned =>
          obtain ⟨hdone, hrows⟩ := completed_rewritten inside e.done (hinside ▸ hr) hheld
          rw [hdone, Bool.not_true, Bool.and_false]
          refine Or.inl ⟨rfl, _, .succeeded e.done.now, fun k ↦ ?_⟩
          rw [← hinside]
          exact hrows k
      | raised exc =>
          obtain ⟨hlost, hrollback⟩ := hraises exc rfl
          simp only
          cases hconn : wantsConnection with
          | false => exact hcatch exc hinside hlost
          | true =>
              rw [if_pos rfl, hrollback hconn, if_neg Bool.false_ne_true]
              exact hcatch exc hmeanwhile hlost

/-- The row that a claim has picked, as it leaves it. -/
def Job.claimedBy (w : WorkerId) (lease : Int) (claim : Ctx) (r : Job) : Job :=
  SetClause.claim w (claim.now + seconds lease) r

theorem processOne_none (h : db.jobs.claimable claim 1 = []) :
    (processOne registry w lease claim e db).2 = none := by
  have hclaim : db.jobs.claimJobs claim w lease 1 =
      ((db.jobs.claimJobs claim w lease 1).1, []) := by
    refine Prod.ext rfl (List.perm_nil.mp ?_)
    have hperm := db.jobs.claimJobs_perm claim w lease 1
    rwa [h, List.map_nil] at hperm
  unfold processOne Jobs.claimNextJob
  rw [hclaim]
  rfl

theorem processOne_some (h : db.jobs.claimable claim 1 = [r]) :
    processOne registry w lease claim e db =
      let (after, exit) := runJob registry e
        { db with jobs := (db.jobs.claimJobs claim w lease 1).1 } ⟨r.id, r.task, r.args⟩ w
      (after, some exit) := by
  have hclaim : db.jobs.claimJobs claim w lease 1 =
      ((db.jobs.claimJobs claim w lease 1).1, [(r.id, r.task, r.args)]) := by
    refine Prod.ext rfl (List.perm_singleton.mp ?_)
    have hperm := db.jobs.claimJobs_perm claim w lease 1
    rwa [h, List.map_singleton] at hperm
  unfold processOne Jobs.claimNextJob
  rw [hclaim]
  rfl

-- It finds nothing that is due and free, or it runs the job that it takes.
theorem processOne_cases (hpolite : Polite registry)
    (hmeanwhile : ∀ db, (e.meanwhile db).jobs = db.jobs) {after : Database δ}
    {result : Option Exit} (h : processOne registry w lease claim e db = (after, result)) :
    (result = none ∧ claim.FindsNothing db.jobs) ∨
      ∃ r, db.jobs.row r.id = some r ∧ r.status = .pending ∧
        ((result = some .returned ∧ ∃ r', Settled registry (r.claimedBy w lease claim) r' ∧
            db.jobs.Rewritten after.jobs r.id r') ∨
          ∃ b, result = some (.raised b)) := by
  have hlen : (db.jobs.claimable claim 1).length ≤ 1 := List.length_take_le _ _
  cases hsel : db.jobs.claimable claim 1 with
  | nil =>
      have hnone : result = none := (congrArg Prod.snd h).symm.trans (processOne_none hsel)
      have hclaimed : (db.jobs.claimJobs claim w lease 1).2 = [] := by
        have hperm := db.jobs.claimJobs_perm claim w lease 1
        rw [hsel, List.map_nil] at hperm
        exact List.perm_nil.mp hperm
      exact Or.inl ⟨hnone, Jobs.findsNothing Nat.one_pos hclaimed⟩
  | cons r rest =>
      have hrest : rest = [] := by
        rw [hsel, List.length_cons] at hlen
        exact List.length_eq_zero_iff.mp (by omega)
      subst hrest
      have hmem : r ∈ db.jobs.claimable claim 1 := hsel ▸ List.mem_singleton_self r
      obtain ⟨hin, hdue, -⟩ := Jobs.mem_selectForUpdate hmem
      have hrow := Jobs.row_of_mem hin
      -- the run starts from the row as the claim has left it
      have hclaimed : (db.jobs.claimJobs claim w lease 1).1.row r.id =
          some (r.claimedBy w lease claim) := Jobs.row_updateIn_of_mem hrow hmem _
      have hheld : (r.claimedBy w lease claim).heldBy w = true := Job.heldBy_iff.mpr ⟨rfl, rfl⟩
      have hother (k : Nat) (hk : k ≠ r.id) :
          (db.jobs.claimJobs claim w lease 1).1.row k = db.jobs.row k := by
        rcases Jobs.row_claimJobs db.jobs k claim w lease 1 with hsame | ⟨x, hx, hxrow, -⟩
        · exact hsame
        · rw [hsel, List.mem_singleton] at hx
          exact absurd (hx ▸ (Jobs.row_id hxrow).symm) hk
      refine Or.inr ⟨r, hrow, (Job.due_iff.mp hdue).1, ?_⟩
      rw [processOne_some hsel] at h
      obtain ⟨rfl, rfl⟩ := Prod.mk.inj h
      rcases runJob_settles (r := r.claimedBy w lease claim) ⟨r.id, r.task, r.args⟩ hpolite
        (hmeanwhile { db with jobs := (db.jobs.claimJobs claim w lease 1).1 }) rfl hclaimed
        hheld with ⟨hexit, r', hr', hrows⟩ | ⟨b, hexit, -⟩
      · refine Or.inl ⟨congrArg some hexit, r', hr', fun k ↦ (hrows k).trans ?_⟩
        by_cases hk : k = r.id
        · rw [if_pos hk, if_pos hk]
        · rw [if_neg hk, if_neg hk]
          exact hother k hk
      · exact Or.inr ⟨b, congrArg some hexit⟩

end Rows

/-! ## The runs that are left -/

/-- How often it may still be run, counting the run that a claim always gives it. -/
def Job.runsLeft (registry : String → Option (RegisteredTask δ)) (r : Job) : Nat :=
  if r.status = .pending then
    max 1 ((ownLimit registry r).getD r.maxAttempts - r.attempts).toNat
  else 0

/-- Of all jobs with ids below `n`. -/
def Jobs.runsLeft (registry : String → Option (RegisteredTask δ)) (n : Nat) (t : Jobs) : Nat :=
  worth (fun o : Option Job ↦ (o.map (Job.runsLeft registry)).getD 0) t.row n

/-- What becomes of a row. -/
inductive Job.Drained (r : Job) : Job → Prop where
  | untouched : Drained r r
  | ran {r' : Job} (hpending : r.status = .pending) (hrequest : r'.request = r.request)
      (hend : r'.status = .succeeded ∨
        (r'.status = .dead ∨ r'.status = .pending) ∧ r.attempts < r'.attempts) : Drained r r'

section Drain

variable {registry : String → Option (RegisteredTask δ)} {w : WorkerId} {lease : Int}
  {claim : Ctx} {r r' : Job}

theorem Settled.request_eq (h : Settled registry (r.claimedBy w lease claim) r') :
    r'.request = r.request := by
  cases h with
  | succeeded now => rfl
  | failed h => rcases Job.failed_cases h with ⟨rfl, -⟩ | ⟨delay, -, rfl, -⟩ <;> rfl

theorem Settled.ends (h : Settled registry (r.claimedBy w lease claim) r') :
    r'.status = .succeeded ∨
      (r'.status = .dead ∨ r'.status = .pending) ∧ r.attempts < r'.attempts := by
  cases h with
  | succeeded now => exact Or.inl rfl
  | failed h =>
      have hcount := (Job.recorded_of_failed h).1
      have hless : r.attempts < r'.attempts := by
        rw [hcount]
        exact Nat.lt_succ_self r.attempts
      rcases Job.failed_cases h with ⟨rfl, -⟩ | ⟨delay, -, rfl, -⟩
      · exact Or.inr ⟨Or.inl rfl, hless⟩
      · exact Or.inr ⟨Or.inr rfl, hless⟩

-- A run that comes back to the queue has used up one attempt of several.
theorem Settled.runsLeft_lt (h : Settled registry (r.claimedBy w lease claim) r')
    (hpending : r.status = .pending) : r'.runsLeft registry < r.runsLeft registry := by
  have hleft : 1 ≤ r.runsLeft registry := by
    unfold Job.runsLeft
    rw [if_pos hpending]
    exact le_max_left _ _
  have hdone (hstatus : r'.status ≠ .pending) : r'.runsLeft registry = 0 := if_neg hstatus
  cases h with
  | succeeded now => exact hleft
  | failed h =>
      rcases Job.failed_cases h with ⟨rfl, -⟩ | ⟨delay, -, rfl, -, hmore⟩
      · exact hleft
      · have hlimit : r.attempts + 1 < (ownLimit registry r).getD r.maxAttempts := hmore
        -- the limit that is written to the row is the one that was applied
        have hsame : (ownLimit registry r).getD ((ownLimit registry r).getD r.maxAttempts) =
            (ownLimit registry r).getD r.maxAttempts := by
          cases ownLimit registry r <;> rfl
        have hleft' : r.runsLeft registry =
            max 1 ((ownLimit registry r).getD r.maxAttempts - r.attempts).toNat := if_pos hpending
        rw [hleft']
        change max 1 ((ownLimit registry r).getD ((ownLimit registry r).getD r.maxAttempts) -
          ((r.attempts + 1 : Nat) : Int)).toNat < _
        rw [hsame]
        omega

theorem Job.Drained.settle {r₀ : Job} (h : r₀.Drained r) (hpending : r.status = .pending)
    (hr' : Settled registry (r.claimedBy w lease claim) r') : r₀.Drained r' := by
  cases h with
  | untouched => exact .ran hpending hr'.request_eq hr'.ends
  | ran hpending₀ hrequest hend =>
      refine .ran hpending₀ (hr'.request_eq.trans hrequest) ?_
      rcases hend with hsucceeded | ⟨-, hless⟩
      · cases hpending.symm.trans hsucceeded
      · exact hr'.ends.imp_right fun hends ↦ ⟨hends.1, hless.trans hends.2⟩

-- One row has given up a run, and the others are as they were.
theorem Jobs.runsLeft_lt {t u : Jobs} {n : Nat} (hrow : t.row r.id = some r) (hid : r.id < n)
    (hrows : t.Rewritten u r.id r') (hlt : r'.runsLeft registry < r.runsLeft registry) :
    u.runsLeft registry n < t.runsLeft registry n := by
  have hle : u.runsLeft registry n + ∑ k ∈ range n, (if k = r.id then 1 else 0) ≤
      t.runsLeft registry n + ∑ _k ∈ range n, 0 := by
    refine worth_add_le fun k _ ↦ ?_
    rw [hrows k]
    by_cases hk : k = r.id
    · rw [if_pos hk, if_pos hk, hk, hrow]
      exact hlt
    · rw [if_neg hk, if_neg hk]
  rw [sum_ite_eq', if_pos (mem_range.mpr hid), sum_const_zero] at hle
  exact hle

end Drain

/-! ## The loop -/

/-- `while process_one(...): pass`, the `i`-th call with what it meets. -/
def drainAhead (registry : String → Option (RegisteredTask δ)) (w : WorkerId) (lease : Int)
    (calls : Nat → Ctx × Surroundings δ) (s : Database δ × Nat) : Bool :=
  decide ((processOne registry w lease (calls s.2).1 (calls s.2).2 s.1).2 = some .returned)

def drainNext (registry : String → Option (RegisteredTask δ)) (w : WorkerId) (lease : Int)
    (calls : Nat → Ctx × Surroundings δ) (s : Database δ × Nat) : Database δ × Nat :=
  ((processOne registry w lease (calls s.2).1 (calls s.2).2 s.1).1, s.2 + 1)

section Loop

variable {registry : String → Option (RegisteredTask δ)} {w : WorkerId} {lease : Int}
  {calls : Nat → Ctx × Surroundings δ} {db : Database δ}

/-- What holds of a database that the loop has come to from `db`. -/
def DrainedFrom (db after : Database δ) : Prop :=
  ∀ id, match db.jobs.row id with
    | none => after.jobs.row id = none
    | some r => ∃ r', after.jobs.row id = some r' ∧ r.Drained r'

theorem drain_turn (hpolite : Polite registry)
    (hmeanwhile : ∀ i db, ((calls i).2.meanwhile db).jobs = db.jobs) (w : WorkerId) (lease : Int)
    (s : Database δ × Nat) (hs : DrainedFrom db s.1)
    (hahead : drainAhead registry w lease calls s = true) :
    DrainedFrom db (drainNext registry w lease calls s).1 ∧
      (drainNext registry w lease calls s).1.jobs.runsLeft registry db.jobs.nextId <
        s.1.jobs.runsLeft registry db.jobs.nextId := by
  have hreturned := of_decide_eq_true hahead
  rcases processOne_cases hpolite (hmeanwhile s.2) (Prod.eta _).symm with
    ⟨hnone, -⟩ | ⟨r, hrow, hpending, ⟨-, r', hsettled, hrows⟩ | ⟨b, hraised⟩⟩
  · cases hnone.symm.trans hreturned
  · have hid : r.id < db.jobs.nextId := by
      have hold := hs r.id
      cases hdb : db.jobs.row r.id with
      | none =>
          rw [hdb] at hold
          cases hrow.symm.trans hold
      | some r₀ => exact Jobs.row_lt hdb
    refine ⟨fun id ↦ ?_, Jobs.runsLeft_lt hrow hid hrows (hsettled.runsLeft_lt hpending)⟩
    have hold := hs id
    have hnew : (drainNext registry w lease calls s).1.jobs.row id = _ := hrows id
    rw [hnew]
    by_cases hk : id = r.id
    · subst hk
      cases hdb : db.jobs.row r.id with
      | none =>
          rw [hdb] at hold
          cases hrow.symm.trans hold
      | some r₀ =>
          rw [hdb] at hold
          obtain ⟨x, hx, hdrained⟩ := hold
          obtain rfl := Option.some.inj (hrow.symm.trans hx)
          rw [if_pos rfl]
          exact ⟨r', rfl, hdrained.settle hpending hsettled⟩
    · rw [if_neg hk]
      exact hold
  · cases hraised.symm.trans hreturned

theorem drain_calls {s t : Database δ × Nat} {n : Nat}
    (h : While (drainAhead registry w lease calls) (drainNext registry w lease calls) s n t) :
    t.2 = s.2 + n := by
  induction h with
  | done _ => rfl
  | turn _ _ ih =>
      rw [ih]
      exact Nat.add_right_comm _ 1 _

/-- A loop that calls `process_one` for as long as it returns True ends, after at most as many runs
as the pending jobs had left, at whatever times its statements run and whichever rows are locked.
By then each job is as it was, or has succeeded, or has used up attempts and died or waits; and the
last call has found nothing that is due and free, or has raised. -/
theorem process_one_drains (hpolite : Polite registry) (calls : Nat → Ctx × Surroundings δ)
    (hmeanwhile : ∀ i db, ((calls i).2.meanwhile db).jobs = db.jobs) (w : WorkerId) (lease : Int)
    (db : Database δ) :
    ∃ n ≤ db.jobs.runsLeft registry db.jobs.nextId, ∃ after,
      While (drainAhead registry w lease calls) (drainNext registry w lease calls) (db, 0) n
        (after, n) ∧
      DrainedFrom db after ∧
      let result := (processOne registry w lease (calls n).1 (calls n).2 after).2
      (result = none ∧ (calls n).1.FindsNothing after.jobs) ∨ ∃ b, result = some (.raised b) := by
  have hstart : DrainedFrom db db := by
    intro id
    cases hrow : db.jobs.row id with
    | none => rfl
    | some r => exact ⟨r, rfl, .untouched⟩
  obtain ⟨n, hn, ⟨after, i⟩, hloop, hafter, hstop⟩ :=
    While.exists_of_rank (fun s ↦ DrainedFrom db s.1)
      (fun s ↦ s.1.jobs.runsLeft registry db.jobs.nextId)
      (drain_turn hpolite hmeanwhile w lease) (s := (db, 0)) hstart
  obtain rfl : i = n := (drain_calls hloop).trans (Nat.zero_add n)
  refine ⟨i, hn, after, hloop, hafter, ?_⟩
  rcases processOne_cases hpolite (hmeanwhile i) (Prod.eta _).symm with
    ⟨hnone, hnothing⟩ | ⟨r, -, -, ⟨hreturned, -⟩ | hraised⟩
  · exact Or.inl ⟨hnone, hnothing⟩
  · exact absurd hreturned (of_decide_eq_false hstop)
  · exact Or.inr hraised

end Loop

/-- Only `t` is registered: it raises a `ValueError('boom')`, and is run once more. -/
def boomingOnce (name : String) : Option (RegisteredTask Unit) :=
  if name = "t" then some { failing (toPyStr "boom") with maxAttempts := some 2 } else none

theorem polite_boomingOnce : Polite boomingOnce where
  jobs task registered h args db := by
    unfold boomingOnce at h
    split at h
    · obtain rfl := Option.some.inj h
      rfl
    · cases h
  raises task registered h args db exc hexc := by
    unfold boomingOnce at h
    split at h
    · obtain rfl := Option.some.inj h
      obtain rfl := Ending.raised.inj hexc
      exact ⟨rfl, fun hconn ↦ absurd hconn Bool.false_ne_true⟩
    · cases h

def twoQueued : Database Unit :=
  ⟨((Jobs.empty.enqueue "t" "{}" none 0).1.enqueue "u" "{}" none 0).1, ()⟩

/-- A call a second. -/
def everySecond (i : Nat) : Ctx × Surroundings Unit := (.alone (seconds i), alone)

-- Two runs of the first job, and five of the one that no task is registered for.
theorem process_one_drains_two :
    ∃ n ≤ 7, ∃ after,
      While (drainAhead boomingOnce "w" 30 everySecond) (drainNext boomingOnce "w" 30 everySecond)
        (twoQueued, 0) n (after, n) ∧
      DrainedFrom twoQueued after ∧
      let result := (processOne boomingOnce "w" 30 (everySecond n).1 (everySecond n).2 after).2
      (result = none ∧ (everySecond n).1.FindsNothing after.jobs) ∨
        ∃ b, result = some (.raised b) := by
  have hseven : twoQueued.jobs.runsLeft boomingOnce twoQueued.jobs.nextId = 7 := by decide
  rw [← hseven]
  exact process_one_drains polite_boomingOnce everySecond (fun _ _ ↦ rfl) "w" 30 twoQueued

end DurableQueue
