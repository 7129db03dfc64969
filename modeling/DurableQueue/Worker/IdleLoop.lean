import DurableQueue.Jobs.Lifecycle
import DurableQueue.Wakeup
import Mathlib.Order.Bounds.Defs

/-!
# The idle worker

The main loop of `run_worker(idle=True)` among the other threads of its process and the other
processes: producers that commit a change and then wake the loop, completions in its slots, a
stopper, and calls that wake nobody.
-/

open Reasoning

namespace DurableQueue

structure WorkerOptions where
  workerId : WorkerId
  leaseSeconds : Int
  batchSize : Nat
  concurrency : Nat

namespace WorkerOptions

/-- `batch_size = max(batch_size, concurrency)`. -/
def claimBatch (o : WorkerOptions) : Nat := max o.batchSize o.concurrency

def maxOutstanding (o : WorkerOptions) : Nat := max o.claimBatch (o.concurrency * 2)

end WorkerOptions

/-- What a loop that goes to sleep has read, seen and computed in this iteration. -/
structure Sleep where
  look : Look Producer
  claimSaw : List Producer
  dueSaw : List Producer
  table : Jobs
  now : Int
  timeout : Option Int

/-- Where the loop is. -/
inductive WorkerPc where
  | test
  | current
  | deadLetter (look : Look Producer)
  | recover (look : Look Producer)
  | capacity (look : Look Producer)
  | testAgain (look : Look Producer) (room : Nat)
  | claim (look : Look Producer) (room : Nat)
  | due (look : Look Producer) (claimSaw : List Producer)
  | wait (sleep : Sleep)
  | pause
  | done

structure IdleWorker where
  jobs : Jobs
  wakeup : Wakeup
  outstanding : Nat
  pc : WorkerPc

/-- The loop's own steps, then those of others. -/
inductive WorkerAct where
  | test
  | current
  | skipSweep
  | deadLetter (ctx : Ctx) (reapBatch : Nat)
  | recover (ctx : Ctx) (reapBatch : Nat)
  | capacity
  | testAgain
  | claim (ctx : Ctx) (seen : Bool)
  | due (now : Int)
  | wake
  | loseConnection
  | resume
  | finished
  | bump
  | commit (n : Nat) (c : Call)
  | announce (p : Producer)
  | setStop
  | call (c : Call)

/-- Where `psycopg.OperationalError` is caught. -/
def WorkerPc.guarded : WorkerPc → Bool
  | deadLetter _ => true
  | recover _ => true
  | claim _ _ => true
  | due _ _ => true
  | _ => false

section Step

variable (o : WorkerOptions)

inductive WorkerStep : IdleWorker → WorkerAct → IdleWorker → Prop where
  | stop {s : IdleWorker} (hpc : s.pc = .test) (hstop : stopSet s.wakeup = true) :
      WorkerStep s .test { s with pc := .done }
  | go {s : IdleWorker} (hpc : s.pc = .test) (hstop : stopSet s.wakeup = false) :
      WorkerStep s .test { s with pc := .current }
  | current {s : IdleWorker} (hpc : s.pc = .current) :
      WorkerStep s .current { s with pc := .deadLetter s.wakeup.look }
  -- `if monotonic() >= next_reap_at`
  | skipSweep {s : IdleWorker} {l : Look Producer} (hpc : s.pc = .deadLetter l) :
      WorkerStep s .skipSweep { s with pc := .capacity l }
  | deadLetter {s : IdleWorker} {l : Look Producer} {ctx : Ctx} {batch : Nat}
      (hpc : s.pc = .deadLetter l) :
      WorkerStep s (.deadLetter ctx batch)
        { s with jobs := (s.jobs.deadLetterExpired ctx batch).1, pc := .recover l }
  | recover {s : IdleWorker} {l : Look Producer} {ctx : Ctx} {batch : Nat}
      (hpc : s.pc = .recover l) :
      WorkerStep s (.recover ctx batch)
        { s with jobs := (s.jobs.recoverExpired ctx batch).1, pc := .capacity l }
  | capacity {s : IdleWorker} {l : Look Producer} (hpc : s.pc = .capacity l)
      (hroom : s.outstanding < o.maxOutstanding ∨ stopSet s.wakeup = true) :
      WorkerStep s .capacity
        { s with pc := .testAgain l (o.maxOutstanding - s.outstanding) }
  | stopAgain {s : IdleWorker} {l : Look Producer} {room : Nat} (hpc : s.pc = .testAgain l room)
      (hstop : stopSet s.wakeup = true) : WorkerStep s .testAgain { s with pc := .done }
  | goAgain {s : IdleWorker} {l : Look Producer} {room : Nat} (hpc : s.pc = .testAgain l room)
      (hstop : stopSet s.wakeup = false) :
      WorkerStep s .testAgain { s with pc := .claim l room }
  | claimed {s : IdleWorker} {l : Look Producer} {room : Nat} {ctx : Ctx}
      (hpc : s.pc = .claim l room)
      (hsome : (s.jobs.claimJobs ctx o.workerId o.leaseSeconds (min room o.claimBatch)).2 ≠ []) :
      WorkerStep s (.claim ctx true)
        { s with
          jobs := (s.jobs.claimJobs ctx o.workerId o.leaseSeconds (min room o.claimBatch)).1
          outstanding := s.outstanding +
            (s.jobs.claimJobs ctx o.workerId o.leaseSeconds (min room o.claimBatch)).2.length
          pc := .test }
  | claimedNone {s : IdleWorker} {l : Look Producer} {room : Nat} {ctx : Ctx}
      (hpc : s.pc = .claim l room)
      (hnone : (s.jobs.claimJobs ctx o.workerId o.leaseSeconds (min room o.claimBatch)).2 = []) :
      WorkerStep s (.claim ctx true)
        { s with
          jobs := (s.jobs.claimJobs ctx o.workerId o.leaseSeconds (min room o.claimBatch)).1
          pc := .due l s.wakeup.published }
  -- committed, and the reply lost
  | claimedUnseen {s : IdleWorker} {l : Look Producer} {room : Nat} {ctx : Ctx}
      (hpc : s.pc = .claim l room) :
      WorkerStep s (.claim ctx false)
        { s with
          jobs := (s.jobs.claimJobs ctx o.workerId o.leaseSeconds (min room o.claimBatch)).1
          pc := .pause }
  | due {s : IdleWorker} {l : Look Producer} {saw : List Producer} {now : Int}
      (hpc : s.pc = .due l saw) :
      WorkerStep s (.due now)
        { s with pc := .wait ⟨l, saw, s.wakeup.published, s.jobs, now,
            sleepTimeout (s.jobs.secondsUntilDue now)⟩ }
  -- the generation has moved, or the timeout has passed
  | wake {s : IdleWorker} {sleep : Sleep} (hpc : s.pc = .wait sleep)
      (hwake : s.wakeup.generation ≠ sleep.look.seen ∨ sleep.timeout.isSome) :
      WorkerStep s .wake { s with pc := .test }
  | loseConnection {s : IdleWorker} (hpc : s.pc.guarded = true) :
      WorkerStep s .loseConnection { s with pc := .pause }
  | resume {s : IdleWorker} (hpc : s.pc = .pause) : WorkerStep s .resume { s with pc := .test }
  | finished {s : IdleWorker} (hsome : 0 < s.outstanding) :
      WorkerStep s .finished { s with outstanding := s.outstanding - 1 }
  -- a slot that has finished the last job, or another `wake()` of this process
  | bump {s : IdleWorker} : WorkerStep s .bump { s with wakeup := s.wakeup.bump }
  | commit {s : IdleWorker} {n : Nat} {c : Call} :
      WorkerStep s (.commit n c)
        { s with jobs := c.run s.jobs, wakeup := s.wakeup.publish (.change n) }
  | announce {s : IdleWorker} {p : Producer} (hp : p ∈ s.wakeup.published) :
      WorkerStep s (.announce p) { s with wakeup := s.wakeup.wake p }
  | setStop {s : IdleWorker} :
      WorkerStep s .setStop { s with wakeup := s.wakeup.publish .stopper }
  | call {s : IdleWorker} {c : Call} : WorkerStep s (.call c) { s with jobs := c.run s.jobs }

def idleWorker : System IdleWorker WorkerAct where
  init s := s = ⟨.empty, .empty, 0, .test⟩
  step := WorkerStep o

end Step

/-! ## What `seconds_until_due` is the time until -/

/-- At `m` the row is one a claim may take, or a sweep will soon recover. -/
def Job.wanting (r : Job) (m : Int) : Prop :=
  r.due m ∨ r.status = .running ∧ ∃ u, r.lockedUntil = some u ∧ u ≤ m

namespace Jobs

variable {t : Jobs} {now : Int}

/-- The moments that `seconds_until_due` takes the least of. -/
def dueTimes (t : Jobs) : List Int :=
  (t.rows.filter fun r ↦ r.status = .pending).map Job.runAt ++
    (t.rows.filter fun r ↦ r.status = .running).filterMap Job.lockedUntil

theorem mem_dueTimes {m : Int} :
    m ∈ t.dueTimes ↔ ∃ r ∈ t.rows, (r.status = .pending ∧ r.runAt = m) ∨
      (r.status = .running ∧ r.lockedUntil = some m) := by
  simp only [dueTimes, List.mem_append, List.mem_map, List.mem_filterMap, List.mem_filter,
    decide_eq_true_eq]
  constructor
  · rintro (⟨r, ⟨hr, hs⟩, hm⟩ | ⟨r, ⟨hr, hs⟩, hm⟩)
    · exact ⟨r, hr, Or.inl ⟨hs, hm⟩⟩
    · exact ⟨r, hr, Or.inr ⟨hs, hm⟩⟩
  · rintro ⟨r, hr, ⟨hs, hm⟩ | ⟨hs, hm⟩⟩
    · exact Or.inl ⟨r, ⟨hr, hs⟩, hm⟩
    · exact Or.inr ⟨r, ⟨hr, hs⟩, hm⟩

-- It is the time until some row wants a worker for the first time.
theorem secondsUntilDue_isLeast {d : Int} (h : t.secondsUntilDue now = some d) :
    IsLeast {m | ∃ r ∈ t.rows, r.wanting m} (now + d) := by
  obtain ⟨least, hmin, rfl⟩ := Option.map_eq_some_iff.mp h
  obtain ⟨hmem, hle⟩ := List.min?_eq_some_iff.mp hmin
  rw [show now + (least - now) = least by omega]
  constructor
  · obtain ⟨r, hr, ⟨hs, hm⟩ | ⟨hs, hm⟩⟩ := mem_dueTimes.mp hmem
    · exact ⟨r, hr, Or.inl (Job.due_iff.mpr ⟨hs, by omega⟩)⟩
    · exact ⟨r, hr, Or.inr ⟨hs, least, hm, Int.le_refl _⟩⟩
  · rintro m ⟨r, hr, hdue | ⟨hs, u, hu, hum⟩⟩
    · obtain ⟨hs, hrun⟩ := Job.due_iff.mp hdue
      have hle := hle r.runAt (mem_dueTimes.mpr ⟨r, hr, Or.inl ⟨hs, rfl⟩⟩)
      omega
    · have hle := hle u (mem_dueTimes.mpr ⟨r, hr, Or.inr ⟨hs, hu⟩⟩)
      omega

-- There is no such time only if nothing is pending or running.
theorem secondsUntilDue_none (ht : jobCalls.Reachable t) (h : t.secondsUntilDue now = none) :
    ∀ r ∈ t.rows, r.status ≠ .pending ∧ r.status ≠ .running := by
  have hnil : t.dueTimes = [] := List.min?_eq_none_iff.mp (Option.map_eq_none_iff.mp h)
  intro r hr
  have hnot (m : Int) : m ∉ t.dueTimes := by
    rw [hnil]
    exact List.not_mem_nil
  constructor
  · intro hs
    exact hnot r.runAt (mem_dueTimes.mpr ⟨r, hr, Or.inl ⟨hs, rfl⟩⟩)
  · intro hs
    have hleased := ((jobCalls_consistent ht _ r (row_of_mem hr)).leased hs).2
    obtain ⟨u, hu⟩ := Option.isSome_iff_exists.mp hleased
    exact hnot u (mem_dueTimes.mpr ⟨r, hr, Or.inr ⟨hs, hu⟩⟩)

end Jobs

/-! ## The loop -/

/-- What the loop knows at each point about what it has taken down. -/
def WorkerPc.Informed (wakeup : Wakeup) : WorkerPc → Prop
  | deadLetter l => wakeup.Sound l
  | recover l => wakeup.Sound l
  | capacity l => wakeup.Sound l
  | testAgain l _ => wakeup.Sound l
  | claim l _ => wakeup.Sound l ∧ Producer.stopper ∉ l.woken
  | due l saw => wakeup.Sound l ∧ Producer.stopper ∉ l.woken ∧ ∀ p ∈ l.woken, p ∈ saw
  | wait sleep => wakeup.Sound sleep.look ∧ Producer.stopper ∉ sleep.look.woken ∧
      (∀ p ∈ sleep.look.woken, p ∈ sleep.claimSaw) ∧ (∀ p ∈ sleep.look.woken, p ∈ sleep.dueSaw) ∧
      jobCalls.Reachable sleep.table ∧
      sleep.timeout = sleepTimeout (sleep.table.secondsUntilDue sleep.now)
  | _ => True

structure IdleWorker.Inv (s : IdleWorker) : Prop where
  valid : s.wakeup.Valid
  reachable : jobCalls.Reachable s.jobs
  informed : s.pc.Informed s.wakeup

-- A change of the counter that keeps looks sound keeps the loop informed.
theorem WorkerPc.Informed.mono {pc : WorkerPc} {wakeup wakeup' : Wakeup}
    (h : pc.Informed wakeup) (hw : ∀ l, wakeup.Sound l → wakeup'.Sound l) :
    pc.Informed wakeup' := by
  cases pc with
  | test | current | pause | done => trivial
  | deadLetter l | recover l | capacity l | testAgain l room => exact hw _ h
  | claim l room | due l saw | wait sleep => exact ⟨hw _ h.1, h.2⟩

theorem IdleWorker.Inv.step {o : WorkerOptions} {s t : IdleWorker} {a : WorkerAct} (h : s.Inv)
    (ha : WorkerStep o s a t) : t.Inv := by
  obtain ⟨hvalid, hjobs, hinf⟩ := h
  have hclaim (ctx : Ctx) (batch : Nat) :
      jobCalls.Reachable (s.jobs.claimJobs ctx o.workerId o.leaseSeconds batch).1 :=
    .step (a := ⟨ctx, .claimJobs o.workerId o.leaseSeconds batch⟩) hjobs rfl
  cases ha with
  | stop hpc hstop => exact ⟨hvalid, hjobs, trivial⟩
  | go hpc hstop => exact ⟨hvalid, hjobs, trivial⟩
  | current hpc => exact ⟨hvalid, hjobs, hvalid.look⟩
  | skipSweep hpc =>
      rw [hpc] at hinf
      exact ⟨hvalid, hjobs, hinf⟩
  | @deadLetter l ctx batch hpc =>
      rw [hpc] at hinf
      exact ⟨hvalid, .step (a := ⟨ctx, .deadLetterExpired batch⟩) hjobs rfl, hinf⟩
  | @recover l ctx batch hpc =>
      rw [hpc] at hinf
      exact ⟨hvalid, .step (a := ⟨ctx, .recoverExpired batch⟩) hjobs rfl, hinf⟩
  | capacity hpc hroom =>
      rw [hpc] at hinf
      exact ⟨hvalid, hjobs, hinf⟩
  | stopAgain hpc hstop => exact ⟨hvalid, hjobs, trivial⟩
  | @goAgain l room hpc hstop =>
      rw [hpc] at hinf
      have hsound : s.wakeup.Sound l := hinf
      refine ⟨hvalid, hjobs, hsound, fun hmem ↦ ?_⟩
      -- a stopper that had woken by the look has set `stop` by this test
      rw [stopSet, decide_eq_false_iff_not] at hstop
      exact hstop (hsound.published _ hmem)
  | claimed hpc hsome => exact ⟨hvalid, hclaim _ _, trivial⟩
  | @claimedNone l room ctx hpc hnone =>
      rw [hpc] at hinf
      have hinf : s.wakeup.Sound l ∧ Producer.stopper ∉ l.woken := hinf
      exact ⟨hvalid, hclaim _ _, hinf.1, hinf.2, hinf.1.published⟩
  | claimedUnseen hpc => exact ⟨hvalid, hclaim _ _, trivial⟩
  | @due l saw now hpc =>
      rw [hpc] at hinf
      obtain ⟨hsound, hstop, hsaw⟩ : s.wakeup.Sound l ∧ Producer.stopper ∉ l.woken ∧
        ∀ p ∈ l.woken, p ∈ saw := hinf
      exact ⟨hvalid, hjobs, hsound, hstop, hsaw, hsound.published, hjobs, rfl⟩
  | wake hpc hwake => exact ⟨hvalid, hjobs, trivial⟩
  | loseConnection hpc => exact ⟨hvalid, hjobs, trivial⟩
  | resume hpc => exact ⟨hvalid, hjobs, trivial⟩
  | finished hsome => exact ⟨hvalid, hjobs, hinf⟩
  | bump => exact ⟨hvalid.bump, hjobs, hinf.mono fun _ hl ↦ hl.bump⟩
  | @commit n c =>
      exact ⟨hvalid.publish _, .step (a := c) hjobs rfl, hinf.mono fun _ hl ↦ hl.publish _⟩
  | @announce p hp => exact ⟨hvalid.wake hp, hjobs, hinf.mono fun _ hl ↦ hl.wake p⟩
  | setStop => exact ⟨hvalid.publish _, hjobs, hinf.mono fun _ hl ↦ hl.publish _⟩
  | @call c => exact ⟨hvalid, .step (a := c) hjobs rfl, hinf⟩

theorem idleWorker_inv {o : WorkerOptions} {s : IdleWorker} (h : (idleWorker o).Reachable s) :
    s.Inv := by
  apply h.invariant
  · intro s hs
    rw [show s = ⟨.empty, .empty, 0, .test⟩ from hs]
    exact ⟨fun p hp ↦ absurd hp List.not_mem_nil, .init rfl, trivial⟩
  · intro s a t hs ha
    exact hs.step ha

/-- A worker that is asleep at the generation it has read has missed no finished stopper and no
finished producer, and sleeps no longer than until some row of the table it looked at wants a
worker, or for `MIN_SLEEP`. -/
theorem idle_worker_misses_nothing {o : WorkerOptions} {s : IdleWorker} {sleep : Sleep}
    (h : (idleWorker o).Reachable s) (hpc : s.pc = .wait sleep)
    (hseen : s.wakeup.generation = sleep.look.seen) :
    Producer.stopper ∉ s.wakeup.woken ∧
    (∀ p ∈ s.wakeup.woken, p ∈ sleep.claimSaw ∧ p ∈ sleep.dueSaw) ∧
    match sleep.timeout with
    | none => ∀ r ∈ sleep.table.rows, r.status ≠ .pending ∧ r.status ≠ .running
    | some timeout => ∃ d, IsLeast {m | ∃ r ∈ sleep.table.rows, r.wanting m} (sleep.now + d) ∧
        timeout ≤ max MIN_SLEEP d := by
  have hinv := idleWorker_inv h
  have hinf := hinv.informed
  rw [hpc] at hinf
  obtain ⟨hsound, hstop, hclaim, hdue, htable, htimeout⟩ := hinf
  refine ⟨fun hmem ↦ hstop (hsound.fresh hseen _ hmem),
    fun p hp ↦ ⟨hsound.saw hseen hclaim hp, hsound.saw hseen hdue hp⟩, ?_⟩
  rw [htimeout]
  cases hd : sleep.table.secondsUntilDue sleep.now with
  | none => exact Jobs.secondsUntilDue_none htable hd
  | some d =>
      exact ⟨d, Jobs.secondsUntilDue_isLeast hd, by rw [max_comm]⟩

/-- What happens while a worker falls asleep over a due job that another transaction has locked. -/
def asleepOverLocked : List WorkerAct :=
  [.commit 0 ⟨.alone 0, .enqueue "t" "" none⟩, .announce (.change 0), .test, .current, .skipSweep,
    .capacity, .testAgain, .claim ⟨0, fun _ ↦ true, id⟩ true, .due 0]

theorem idle_worker_misses_nothing_locked :
    ∃ (s : IdleWorker) (sleep : Sleep), (idleWorker ⟨"w", 30, 10, 1⟩).Reachable s ∧
      s.pc = .wait sleep ∧ sleep.timeout = some MIN_SLEEP ∧
      Producer.stopper ∉ s.wakeup.woken ∧ Producer.change 0 ∈ sleep.dueSaw := by
  let sleep : Sleep := ⟨⟨1, [.change 0]⟩, [.change 0], [.change 0],
    Call.run ⟨.alone 0, .enqueue "t" "" none⟩ .empty, 0, some MIN_SLEEP⟩
  have hrun : (idleWorker ⟨"w", 30, 10, 1⟩).Run ⟨.empty, .empty, 0, .test⟩ asleepOverLocked
      ⟨Call.run ⟨.alone 0, .enqueue "t" "" none⟩ .empty, ⟨1, [.change 0], [.change 0]⟩, 0,
        .wait sleep⟩ :=
    .cons .commit <| .cons (.announce (by decide)) <| .cons (.go rfl rfl) <| .cons (.current rfl) <|
      .cons (.skipSweep rfl) <| .cons (.capacity rfl (Or.inl (by decide))) <|
      .cons (.goAgain rfl rfl) <| .cons (.claimedNone rfl rfl) <| .cons (.due rfl) <| .nil _
  have hreach := hrun.reachable (.init rfl)
  have hmain := idle_worker_misses_nothing hreach rfl rfl
  exact ⟨_, sleep, hreach, rfl, rfl, hmain.1, (hmain.2.1 (.change 0) (by decide)).2⟩

end DurableQueue
