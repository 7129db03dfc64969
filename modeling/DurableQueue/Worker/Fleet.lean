import DurableQueue.Reasoning.Runs
import DurableQueue.Worker.Heartbeat

/-!
# The worker processes

Any number of `run_worker` processes on one jobs table.  Each has one worker id, a main loop that
claims batches, slots that run `run_job`, and a heartbeat map; a step is what one of them does
between two points at which another may go on.  Who claimed which job, in order, is kept beside
the table.
-/

open Reasoning

namespace DurableQueue

/-- Where a claimed job is in its process. -/
inductive Phase where
  | claimed                             -- `claim_jobs` has returned it
  | ready                               -- held and buffered
  | taken                               -- a slot has called `run_job`
  | executing (deadline : Int)          -- `run_job` has started its clock
  | failing (deadline : Option Int)     -- an exception is on its way to `mark_failed`
  | settled                             -- only `finally` is left
  | unstarted                           -- taken from the buffer again to be handed back
  deriving DecidableEq

/-- What the heartbeat map ought to have for a run in this phase. -/
def Phase.entry : Phase → Option (Option Int)
  | ready => some none
  | taken => some none
  | executing deadline => some (some deadline)
  | failing deadline => some deadline
  | _ => none

/-- A job that `worker` got by the claim with number `claim`. -/
structure Run where
  worker : WorkerId
  job : Nat
  claim : Nat
  phase : Phase
  deriving DecidableEq

def Run.key (r : Run) : Nat × Nat := (r.job, r.claim)

structure Fleet where
  jobs : Jobs
  claimants : Nat → List WorkerId
  runs : List Run
  deadlines : WorkerId → Deadlines

inductive FleetStep where
  | call (c : Call)
  | claim (ctx : Ctx) (w : WorkerId) (lease : Int) (batch : Nat) (seen : Bool)
  | hold (w : WorkerId)
  | take (r : Run)
  | start (r : Run) (monotonic maxExecution : Int)
  | raise (r : Run)
  | succeed (r : Run) (ctx : Ctx) (seen : Bool)
  | fail (r : Run) (ctx : Ctx) (error : PyStr) (permanent : Bool) (maxAttempts : Option Int)
      (draw : Int)
  | abandon (r : Run)
  | finish (r : Run)
  | drain (r : Run)
  | letGo (w : WorkerId)
  | crash (w : WorkerId)

/-- The calls that only a worker's main loop or a run makes. -/
def JobOp.ofRun : JobOp → Bool
  | .claimJobs .. => true
  | .markSucceeded .. => true
  | .markFailed .. => true
  | _ => false

namespace Fleet

def setPhase (s : Fleet) (r : Run) (phase : Phase) : Fleet :=
  { s with runs := updateRows (fun x ↦ decide (x.key = r.key)) ({ · with phase := phase }) s.runs }

def without (s : Fleet) (p : Run → Bool) : Fleet :=
  { s with runs := s.runs.filter fun x ↦ !p x }

def setDeadlines (s : Fleet) (w : WorkerId) (m : Deadlines) : Fleet :=
  { s with deadlines := Function.update s.deadlines w m }

def call (s : Fleet) (c : Call) : Fleet := { s with jobs := c.run s.jobs }

/-- `batch = claim_jobs(...)`; without `seen` it has committed and the reply is lost. -/
def claim (s : Fleet) (ctx : Ctx) (w : WorkerId) (lease : Int) (batch : Nat) (seen : Bool) :
    Fleet :=
  let (u, rows) := s.jobs.claimJobs ctx w lease batch
  let ids := rows.map (·.1)
  { s with
    jobs := u
    claimants := fun id ↦ if id ∈ ids then s.claimants id ++ [w] else s.claimants id
    runs :=
      if seen then s.runs ++ ids.map fun id ↦ ⟨w, id, (s.claimants id).length, .claimed⟩
      else s.runs }

def inBatch (w : WorkerId) (r : Run) : Bool := decide (r.worker = w ∧ r.phase = .claimed)

/-- `heartbeat.hold([job["id"] for job in batch])`, and the jobs are put into the buffer. -/
def hold (s : Fleet) (w : WorkerId) : Fleet :=
  let ids := (s.runs.filter (inBatch w)).map Run.job
  { s with runs := updateRows (inBatch w) ({ · with phase := .ready }) s.runs }.setDeadlines w
    ((s.deadlines w).hold ids none 0)

def isUnstarted (w : WorkerId) (r : Run) : Bool := decide (r.worker = w ∧ r.phase = .unstarted)

/-- `heartbeat.release(unstarted)`; the `release_jobs` that follows is a call like any other. -/
def letGo (s : Fleet) (w : WorkerId) : Fleet :=
  let ids := (s.runs.filter (isUnstarted w)).map Run.job
  (s.without (isUnstarted w)).setDeadlines w ((s.deadlines w).release ids)

def next (s : Fleet) : FleetStep → Fleet
  | .call c => s.call c
  | .claim ctx w lease batch seen => s.claim ctx w lease batch seen
  | .hold w => s.hold w
  | .take r => s.setPhase r .taken
  | .start r monotonic maxExecution =>
      (s.setPhase r (.executing (monotonic + maxExecution))).setDeadlines r.worker
        ((s.deadlines r.worker).hold [r.job] (some maxExecution) monotonic)
  | .raise r => s.setPhase r (.failing (r.phase.entry.getD none))
  -- without `seen` the reply is lost, which is an exception like one of the task's own
  | .succeed r ctx seen =>
      (s.call ⟨ctx, .markSucceeded r.job r.worker⟩).setPhase r
        (if seen then .settled else .failing (r.phase.entry.getD none))
  | .fail r ctx error permanent maxAttempts draw =>
      (s.call ⟨ctx, .markFailed r.job r.worker error permanent maxAttempts draw⟩).setPhase r
        .settled
  -- the failure could not be recorded
  | .abandon r => s.setPhase r .settled
  | .finish r =>
      (s.without fun x ↦ decide (x.key = r.key)).setDeadlines r.worker
        ((s.deadlines r.worker).release [r.job])
  | .drain r => s.setPhase r .unstarted
  | .letGo w => s.letGo w
  | .crash w => (s.without fun x ↦ decide (x.worker = w)).setDeadlines w ∅

def isExecuting : Phase → Bool
  | .executing _ => true
  | _ => false

def isFailing : Phase → Bool
  | .failing _ => true
  | _ => false

/-- When a step can be taken. -/
def enabled (s : Fleet) : FleetStep → Prop
  | .call c => c.op.ofRun = false
  -- the main loop holds a batch before it claims the next one
  | .claim _ w _ _ _ => ∀ r ∈ s.runs, inBatch w r = false
  | .hold _ => True
  | .take r => r ∈ s.runs ∧ r.phase = .ready
  | .start r _ _ => r ∈ s.runs ∧ r.phase = .taken
  | .raise r => r ∈ s.runs ∧ (r.phase = .taken ∨ isExecuting r.phase)
  | .succeed r _ _ => r ∈ s.runs ∧ isExecuting r.phase
  | .fail r _ _ _ _ _ => r ∈ s.runs ∧ isFailing r.phase
  | .abandon r => r ∈ s.runs ∧ isFailing r.phase
  | .finish r => r ∈ s.runs ∧ r.phase = .settled
  | .drain r => r ∈ s.runs ∧ r.phase = .ready
  | .letGo _ => True
  | .crash _ => True

instance (s : Fleet) : DecidablePred s.enabled
  | .call c => inferInstanceAs (Decidable (c.op.ofRun = false))
  | .claim _ w _ _ _ => inferInstanceAs (Decidable (∀ r ∈ s.runs, inBatch w r = false))
  | .take r => inferInstanceAs (Decidable (r ∈ s.runs ∧ r.phase = .ready))
  | .start r _ _ => inferInstanceAs (Decidable (r ∈ s.runs ∧ r.phase = .taken))
  | .raise r =>
      inferInstanceAs (Decidable (r ∈ s.runs ∧ (r.phase = .taken ∨ isExecuting r.phase)))
  | .succeed r _ _ => inferInstanceAs (Decidable (r ∈ s.runs ∧ isExecuting r.phase))
  | .fail r _ _ _ _ _ => inferInstanceAs (Decidable (r ∈ s.runs ∧ isFailing r.phase))
  | .abandon r => inferInstanceAs (Decidable (r ∈ s.runs ∧ isFailing r.phase))
  | .finish r => inferInstanceAs (Decidable (r ∈ s.runs ∧ r.phase = .settled))
  | .drain r => inferInstanceAs (Decidable (r ∈ s.runs ∧ r.phase = .ready))
  | .hold _ | .letGo _ | .crash _ => inferInstanceAs (Decidable True)

def start : Fleet := ⟨.empty, fun _ ↦ [], [], fun _ ↦ ∅⟩

end Fleet

def fleet : System Fleet FleetStep := .guarded (· = Fleet.start) Fleet.enabled Fleet.next

end DurableQueue
