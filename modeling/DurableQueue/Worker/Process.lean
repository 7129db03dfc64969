import DurableQueue.Worker.Heartbeat
import DurableQueue.Worker.IdleLoop
import DurableQueue.Worker.RunJob

/-!
# One worker process

`run_worker` with all its threads: the main loop, the slots that run jobs, and the heartbeat, around
the ready queue, the counter `outstanding`, the slots' pool and the heartbeat's map.  A step is what
one thread does between two points at which another may go on.
-/

open Reasoning

namespace DurableQueue

/-- The options of `run_worker` and the registered tasks, each with its own
`max_execution_seconds`; times are in microseconds. -/
structure ProcessOptions extends WorkerOptions where
  idle : Bool
  maxExecution : Int
  tasks : List (String × Option Int)

namespace ProcessOptions

/-- The `max_execution_seconds` that a run of the task gets; `none` if it is not registered. -/
def ceiling (o : ProcessOptions) (task : String) : Option Int :=
  (o.tasks.lookup task).map fun own ↦ own.getD o.maxExecution

end ProcessOptions

/-- Where `run_job` is. -/
inductive RunPhase where
  | entered                                       -- about to look the task up
  | executing (deadline : Int)                    -- `heartbeat.hold` is done, the task is running
  | failing (deadline : Option Int)               -- in `except Exception`
  | settled (deadline : Option Int) (exit : Exit) -- in `finally`
  | released (exit : Exit)                        -- left

/-- Where a slot is in its loop. -/
inductive SlotPc where
  | waiting                                       -- in `ready.get()`
  | taken (job : ClaimedJob)
  | running (job : ClaimedJob) (pool : Option Nat) (phase : RunPhase)
  | finishing (exit : Exit)                       -- in `finally`, after `outstanding -= 1`
  | leaving                                       -- it has got the sentinel
  | ended

/-- A slots' pool, by its number among those that have been opened. -/
structure SlotPool where
  number : Nat
  opened : Bool
  deriving DecidableEq

/-- Where the main loop is. -/
inductive MainPc where
  | test
  | deadLetter
  | recover
  | capacity
  | testAgain (room : Int)
  | claim (room : Int)
  | hold (batch : List ClaimedJob)
  | openPool (batch : List ClaimedJob)
  | count (batch : List ClaimedJob)
  | put (batch : List ClaimedJob)
  | nothing
  | due (nothingOutstanding : Bool)
  | close
  | forget
  | sleep
  | pause
  | drain (unstarted : List ClaimedJob)
  | letGo (unstarted : List ClaimedJob)
  | handBack (unstarted : List ClaimedJob)
  | sentinels
  | join
  | returned
  | raised (batch : List ClaimedJob)

namespace MainPc

/-- The loop has neither been left nor raised. -/
def looping : MainPc → Bool
  | drain _ | letGo _ | handBack _ | sentinels | join | returned | raised _ => false
  | _ => true

/-- Where `psycopg.OperationalError` may be raised in the `try`. -/
def guarded : MainPc → Bool
  | deadLetter | recover | claim _ | due _ => true
  | _ => false

/-- The claimed jobs that the main thread has not put into the queue, or has taken out again. -/
def inHand : MainPc → List ClaimedJob
  | hold batch | openPool batch | count batch | put batch | raised batch => batch
  | drain unstarted | letGo unstarted => unstarted
  | _ => []

end MainPc

/-- `beat` is the list of one round of the heartbeat, with the time at which it was read off the
map.  `claimedAt` and `startedAt` say when the process has claimed a job and started it last. -/
structure Process where
  jobs : Jobs
  time : Int
  stop : Bool
  pc : MainPc
  ready : List (Option ClaimedJob)
  outstanding : Int
  pool : Option SlotPool
  pools : Nat
  slots : List SlotPc
  deadlines : Deadlines
  beat : Option (List Nat × Int)
  stopped : Bool
  claimedAt : Nat → Option Int
  startedAt : Nat → Option Int

inductive ProcessAct where
  | main
  | deadLetter (ctx : Ctx) (reapBatch : Nat)
  | recover (ctx : Ctx) (reapBatch : Nat)
  | claim (ctx : Ctx) (seen : Bool)
  | hold
  | openPool
  | count
  | put
  | close
  | forget
  | raise
  | drain
  | letGo
  | handBack (done : Bool)
  | sentinels
  | take (i : Nat)
  | enter (i : Nat)
  | start (i : Nat)
  | unregistered (i : Nat)
  | raises (i : Nat) (ordinary : Bool)
  | swallow (i : Nat)
  | complete (i : Nat) (ctx : Ctx) (seen : Bool)
  | fail (i : Nat) (ctx : Ctx) (error : PyStr) (permanent : Bool) (maxAttempts : Option Int)
      (draw : Int) (seen : Bool)
  | unrecorded (i : Nat) (ordinary : Bool)
  | release (i : Nat)
  | finish (i : Nat)
  | loop (i : Nat)
  | leave (i : Nat)
  | look
  | beat (ctx : Ctx) (done : Bool)
  | stopBeat
  | setStop
  | tick (time : Int)
  | call (c : Call)

namespace Process

def setSlot (s : Process) (i : Nat) (slot : SlotPc) : Process :=
  { s with slots := s.slots.set i slot }

def call (s : Process) (c : Call) : Process := { s with jobs := c.run s.jobs }

/-- The jobs of `RETURNING id, task, args`. -/
def batchOf (rows : List (Nat × String × Json)) : List ClaimedJob :=
  rows.map fun row ↦ ⟨row.1, row.2.1, row.2.2⟩

/-- The table and the times of claims after a claim that returns `rows`. -/
def claimed (s : Process) (jobs : Jobs) (rows : List (Nat × String × Json)) : Process :=
  { s with
    jobs := jobs
    claimedAt := fun id ↦ if id ∈ rows.map Prod.fst then some s.time else s.claimedAt id }

end Process

open Process

section Step

variable (o : ProcessOptions)

/-- `timeout is None or timeout > CLOSE_CONNECTIONS_AFTER`. -/
def longSleep (timeout : Option Int) : Bool := timeout.all fun t ↦ decide (seconds 60 < t)

/-- Steps of the main thread that change nothing but its place. -/
inductive MainMove (s : Process) : MainPc → MainPc → Prop where
  | stop (hstop : s.stop = true) : MainMove s .test (.drain [])
  | go (hstop : s.stop = false) : MainMove s .test .deadLetter
  -- `if monotonic() >= next_reap_at`
  | skipSweep : MainMove s .deadLetter .capacity
  | capacity (hroom : s.outstanding < o.maxOutstanding ∨ s.stop = true) :
      MainMove s .capacity (.testAgain (o.maxOutstanding - s.outstanding))
  | stopAgain {room : Int} (hstop : s.stop = true) : MainMove s (.testAgain room) (.drain [])
  | goAgain {room : Int} (hstop : s.stop = false) : MainMove s (.testAgain room) (.claim room)
  | nothing : MainMove s .nothing (.due (decide (s.outstanding = 0)))
  | due {nothingOutstanding : Bool} {now : Int} (hidle : o.idle = true) :
      MainMove s (.due nothingOutstanding)
        (if nothingOutstanding && longSleep (sleepTimeout (s.jobs.secondsUntilDue now)) then .close
          else .sleep)
  | poll {nothingOutstanding : Bool} (hidle : o.idle = false) :
      MainMove s (.due nothingOutstanding) .sleep
  | slept : MainMove s .sleep .test
  | loseConnection {pc : MainPc} (hpc : pc.guarded = true) : MainMove s pc .pause
  -- `wait_for_job`
  | loseNotify (hidle : o.idle = false) : MainMove s .sleep .pause
  | resume : MainMove s .pause .test
  | drained {unstarted : List ClaimedJob} (hready : s.ready = []) :
      MainMove s (.drain unstarted) (.letGo unstarted)
  | joined : MainMove s .join .returned

inductive ProcessStep : Process → ProcessAct → Process → Prop where
  | main {s : Process} {pc : MainPc} (h : MainMove o s s.pc pc) :
      ProcessStep s .main { s with pc := pc }
  | deadLetter {s : Process} {ctx : Ctx} {batch : Nat} (hpc : s.pc = .deadLetter) :
      ProcessStep s (.deadLetter ctx batch)
        { s.call ⟨ctx, .deadLetterExpired batch⟩ with pc := .recover }
  | recover {s : Process} {ctx : Ctx} {batch : Nat} (hpc : s.pc = .recover) :
      ProcessStep s (.recover ctx batch)
        { s.call ⟨ctx, .recoverExpired batch⟩ with pc := .capacity }
  -- `claim_jobs(..., min(room, batch_size))`
  | claimed {s : Process} {ctx : Ctx} {room : Int} {jobs : Jobs}
      {rows : List (Nat × String × Json)} (hpc : s.pc = .claim room)
      (hclaim : s.jobs.claimJobs ctx o.workerId o.leaseSeconds (min room o.claimBatch).toNat =
        (jobs, rows)) :
      ProcessStep s (.claim ctx true)
        { s.claimed jobs rows with pc := if rows = [] then .nothing else .hold (batchOf rows) }
  -- committed, and the reply lost
  | claimedUnseen {s : Process} {ctx : Ctx} {room : Int} {jobs : Jobs}
      {rows : List (Nat × String × Json)} (hpc : s.pc = .claim room)
      (hclaim : s.jobs.claimJobs ctx o.workerId o.leaseSeconds (min room o.claimBatch).toNat =
        (jobs, rows)) :
      ProcessStep s (.claim ctx false) { s.claimed jobs rows with pc := .pause }
  | hold {s : Process} {batch : List ClaimedJob} (hpc : s.pc = .hold batch) :
      ProcessStep s .hold
        { s with
          deadlines := s.deadlines.hold (batch.map (·.id)) none s.time
          pc := .openPool batch }
  -- `if slot_pool is None`
  | openPool {s : Process} {batch : List ClaimedJob} (hpc : s.pc = .openPool batch) :
      ProcessStep s .openPool
        { s with
          pool := if s.pool = none then some ⟨s.pools, true⟩ else s.pool
          pools := if s.pool = none then s.pools + 1 else s.pools
          pc := .count batch }
  | count {s : Process} {batch : List ClaimedJob} (hpc : s.pc = .count batch) :
      ProcessStep s .count
        { s with outstanding := s.outstanding + batch.length, pc := .put batch }
  | put {s : Process} {job : ClaimedJob} {batch : List ClaimedJob}
      (hpc : s.pc = .put (job :: batch)) :
      ProcessStep s .put { s with ready := s.ready ++ [some job], pc := .put batch }
  | putAll {s : Process} (hpc : s.pc = .put []) : ProcessStep s .put { s with pc := .test }
  | close {s : Process} (hpc : s.pc = .close) :
      ProcessStep s .close
        { s with pool := s.pool.map ({ · with opened := false }), pc := .forget }
  | forget {s : Process} (hpc : s.pc = .forget) :
      ProcessStep s .forget { s with pool := none, pc := .sleep }
  -- whatever else the main thread may raise ends it, and leaves the others alone
  | raise {s : Process} : ProcessStep s .raise { s with pc := .raised s.pc.inHand }
  -- shutting down
  | drain {s : Process} {unstarted : List ClaimedJob} {job : ClaimedJob}
      {rest : List (Option ClaimedJob)} (hpc : s.pc = .drain unstarted)
      (hready : s.ready = some job :: rest) :
      ProcessStep s .drain { s with ready := rest, pc := .drain (unstarted ++ [job]) }
  | letGo {s : Process} {unstarted : List ClaimedJob} (hpc : s.pc = .letGo unstarted) :
      ProcessStep s .letGo
        { s with
          deadlines := s.deadlines.release (unstarted.map (·.id))
          pc := .handBack unstarted }
  | handBack {s : Process} {unstarted : List ClaimedJob} {done : Bool} {ctx : Ctx}
      (hpc : s.pc = .handBack unstarted) :
      ProcessStep s (.handBack done)
        { (if done then s.call ⟨ctx, .releaseJobs (unstarted.map (·.id)) o.workerId⟩ else s) with
          pc := .sentinels }
  | sentinels {s : Process} (hpc : s.pc = .sentinels) :
      ProcessStep s .sentinels
        { s with ready := s.ready ++ List.replicate o.concurrency none, pc := .join }
  -- a slot
  | take {s : Process} {i : Nat} {job : ClaimedJob} {rest : List (Option ClaimedJob)}
      (hslot : s.slots[i]? = some .waiting) (hready : s.ready = some job :: rest) :
      ProcessStep s (.take i) ({ s with ready := rest }.setSlot i (.taken job))
  | enter {s : Process} {i : Nat} {job : ClaimedJob} (hslot : s.slots[i]? = some (.taken job)) :
      ProcessStep s (.enter i) (s.setSlot i (.running job (s.pool.map (·.number)) .entered))
  | start {s : Process} {i : Nat} {job : ClaimedJob} {pool : Option Nat} {ceiling : Int}
      (hslot : s.slots[i]? = some (.running job pool .entered))
      (htask : o.ceiling job.task = some ceiling) :
      ProcessStep s (.start i)
        ({ s with
            deadlines := s.deadlines.hold [job.id] (some ceiling) s.time
            startedAt := Function.update s.startedAt job.id (some s.time) }.setSlot i
          (.running job pool (.executing (s.time + ceiling))))
  | unregistered {s : Process} {i : Nat} {job : ClaimedJob} {pool : Option Nat}
      (hslot : s.slots[i]? = some (.running job pool .entered))
      (htask : o.ceiling job.task = none) :
      ProcessStep s (.unregistered i) (s.setSlot i (.running job pool (.failing none)))
  | raises {s : Process} {i : Nat} {job : ClaimedJob} {pool : Option Nat} {deadline : Int}
      {ordinary : Bool} (hslot : s.slots[i]? = some (.running job pool (.executing deadline))) :
      ProcessStep s (.raises i ordinary)
        (s.setSlot i (.running job pool
          (if ordinary then .failing (some deadline)
            else .settled (some deadline) (.raised false))))
  -- `_LeaseLost`, or a `Rollback` of the transaction
  | swallow {s : Process} {i : Nat} {job : ClaimedJob} {pool : Option Nat} {deadline : Int}
      (hslot : s.slots[i]? = some (.running job pool (.executing deadline))) :
      ProcessStep s (.swallow i)
        (s.setSlot i (.running job pool (.settled (some deadline) .returned)))
  | complete {s : Process} {i : Nat} {job : ClaimedJob} {pool : Option Nat} {deadline : Int}
      {ctx : Ctx} {seen : Bool}
      (hslot : s.slots[i]? = some (.running job pool (.executing deadline))) :
      ProcessStep s (.complete i ctx seen)
        ((s.call ⟨ctx, .markSucceeded job.id o.workerId⟩).setSlot i (.running job pool
          (if seen then .settled (some deadline) .returned else .failing (some deadline))))
  | fail {s : Process} {i : Nat} {job : ClaimedJob} {pool : Option Nat} {deadline : Option Int}
      {ctx : Ctx} {error : PyStr} {permanent : Bool} {maxAttempts : Option Int} {draw : Int}
      {seen : Bool} (hslot : s.slots[i]? = some (.running job pool (.failing deadline)))
      (hseen : seen = true → (s.jobs.markFailed ctx job.id o.workerId error permanent maxAttempts
        draw).isSome) :
      ProcessStep s (.fail i ctx error permanent maxAttempts draw seen)
        ((s.call ⟨ctx, .markFailed job.id o.workerId error permanent maxAttempts draw⟩).setSlot i
          (.running job pool (.settled deadline (if seen then .returned else .raised true))))
  -- nothing has been committed
  | unrecorded {s : Process} {i : Nat} {job : ClaimedJob} {pool : Option Nat}
      {deadline : Option Int} {ordinary : Bool}
      (hslot : s.slots[i]? = some (.running job pool (.failing deadline))) :
      ProcessStep s (.unrecorded i ordinary)
        (s.setSlot i (.running job pool (.settled deadline (.raised ordinary))))
  | release {s : Process} {i : Nat} {job : ClaimedJob} {pool : Option Nat} {deadline : Option Int}
      {exit : Exit} (hslot : s.slots[i]? = some (.running job pool (.settled deadline exit))) :
      ProcessStep s (.release i)
        ({ s with deadlines := s.deadlines.release [job.id] }.setSlot i
          (.running job pool (.released exit)))
  | finish {s : Process} {i : Nat} {job : ClaimedJob} {pool : Option Nat} {exit : Exit}
      (hslot : s.slots[i]? = some (.running job pool (.released exit))) :
      ProcessStep s (.finish i)
        ({ s with outstanding := s.outstanding - 1 }.setSlot i (.finishing exit))
  -- `except Exception` goes round again, anything else ends the thread
  | loop {s : Process} {i : Nat} {exit : Exit} (hslot : s.slots[i]? = some (.finishing exit)) :
      ProcessStep s (.loop i) (s.setSlot i (if exit = .raised false then .ended else .waiting))
  | sentinel {s : Process} {i : Nat} {rest : List (Option ClaimedJob)}
      (hslot : s.slots[i]? = some .waiting) (hready : s.ready = none :: rest) :
      ProcessStep s (.take i) ({ s with ready := rest }.setSlot i .leaving)
  | leave {s : Process} {i : Nat} (hslot : s.slots[i]? = some .leaving) :
      ProcessStep s (.leave i) ({ s with outstanding := s.outstanding - 1 }.setSlot i .ended)
  -- the heartbeat
  | look {s : Process} (hbeat : s.beat = none) (hstopped : s.stopped = false) :
      ProcessStep s .look { s with beat := some (s.deadlines.live s.time, s.time) }
  | beat {s : Process} {ctx : Ctx} {done : Bool} {ids : List Nat} {readAt : Int}
      (hbeat : s.beat = some (ids, readAt)) :
      ProcessStep s (.beat ctx done)
        { (if done then s.call ⟨ctx, .extendLeases ids o.workerId o.leaseSeconds⟩ else s) with
          beat := none }
  | stopBeat {s : Process} (hpc : s.pc = .returned) (hbeat : s.beat = none) :
      ProcessStep s .stopBeat { s with stopped := true }
  -- the rest of the world
  | setStop {s : Process} : ProcessStep s .setStop { s with stop := true }
  | tick {s : Process} {time : Int} (htime : s.time ≤ time) :
      ProcessStep s (.tick time) { s with time := time }
  | call {s : Process} {c : Call} : ProcessStep s (.call c) (s.call c)

/-- A worker that works in idle mode opens its pool when there is work. -/
def Process.start (o : ProcessOptions) (jobs : Jobs) : Process where
  jobs := jobs
  time := 0
  stop := false
  pc := .test
  ready := []
  outstanding := 0
  pool := if o.idle then none else some ⟨0, true⟩
  pools := if o.idle then 0 else 1
  slots := List.replicate o.concurrency .waiting
  deadlines := ∅
  beat := none
  stopped := false
  claimedAt := fun _ ↦ none
  startedAt := fun _ ↦ none

def process : System Process ProcessAct where
  init s := ∃ jobs, s = Process.start o jobs
  step := ProcessStep o

end Step

-- Only a sentinel makes a slot leave.
theorem noLeaving_set {slots : List SlotPc} {i : Nat} {new : SlotPc} (h : .leaving ∉ slots)
    (hnew : new ≠ .leaving) : .leaving ∉ slots.set i new := by
  intro hmem
  rcases List.mem_or_eq_of_mem_set hmem with hold | heq
  · exact h hold
  · exact hnew heq.symm

/-- An idle worker with one slot, which knows the task `t`. -/
def single : ProcessOptions := ⟨⟨"w", 30, 10, 1⟩, true, seconds 300, [("t", none)]⟩

/-- It claims two jobs and puts them into the queue. -/
def claimTwo : List ProcessAct :=
  [.call ⟨.alone 0, .enqueue "t" "" none⟩, .call ⟨.alone 0, .enqueue "t" "" none⟩, .main, .main,
    .main, .main, .claim (.alone 0) true, .hold, .openPool, .count, .put, .put, .put]

def Process.twoClaimed : Process :=
  let empty := Process.start single .empty
  let enqueued := empty.call ⟨.alone 0, .enqueue "t" "" none⟩
  let enqueued := enqueued.call ⟨.alone 0, .enqueue "t" "" none⟩
  { empty.claimed (enqueued.jobs.claimJobs (.alone 0) "w" 30 10).1 [(1, "t", ""), (2, "t", "")] with
    ready := [some ⟨1, "t", ""⟩, some ⟨2, "t", ""⟩]
    outstanding := 2
    pool := some ⟨0, true⟩
    pools := 1
    deadlines := empty.deadlines.hold [1, 2] none 0 }

theorem twoClaimed_run : (process single).Run (start single .empty) claimTwo twoClaimed :=
  .cons .call <| .cons .call <| .cons (.main (.go rfl)) <| .cons (.main .skipSweep) <|
    .cons (.main (.capacity (Or.inl (by decide)))) <| .cons (.main (.goAgain rfl)) <|
    .cons (.claimed rfl rfl) <| .cons (.hold rfl) <| .cons (.openPool rfl) <| .cons (.count rfl) <|
    .cons (.put rfl) <| .cons (.put rfl) <| .cons (.putAll rfl) <| .nil _

end DurableQueue
