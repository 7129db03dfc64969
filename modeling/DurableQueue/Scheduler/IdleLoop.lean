import DurableQueue.Scheduler.Commit
import DurableQueue.Wakeup

/-!
# The idle scheduler

The loop of `run_scheduler(idle=True)` among the other threads of its process (registrations that
commit and then wake it, and a stopper) and the other processes on its database.  Unlike the loop of
`run_worker`, it tests `stop` before it reads the generation, and not again.
-/

open Reasoning

namespace DurableQueue

/-- What a loop that goes to sleep has read, seen and computed in this iteration. -/
structure SchedulerSleep where
  look : Look Producer
  saw : List Producer
  table : Schedules
  now : Int
  timeout : Option Int

/-- The points of the loop, each with what it has taken down. -/
inductive SchedulerPc where
  | test                                       -- `stop is None or not stop.is_set()`
  | current                                    -- `seen = wakeup.current()`
  | pass (look : Look Producer)                -- in `run_due_schedules`, up to the commit
  | notify (look : Look Producer) (fired : Bool)
  | query (look : Look Producer)               -- `seconds_until_next_schedule`
  | wait (sleep : SchedulerSleep)
  | pause
  | done

structure IdleScheduler where
  db : Scheduling
  wakeup : Wakeup
  pc : SchedulerPc

/-- The loop's own steps, then those of others. -/
inductive SchedulerAct where
  | test
  | current
  | pass (a : SchedulingAct)
  | commit (learnt : Bool)
  | notify
  | query (now : Int)
  | wake
  | loseConnection
  | resume
  | bump
  | register (n : Nat) (a : SchedulingAct)
  | announce (p : Producer)
  | setStop
  | other (a : SchedulingAct)

/-- The pass of this scheduler, among all passes on the database. -/
def ownPass : Nat := 0

/-- Where `psycopg.OperationalError` is caught. -/
def SchedulerPc.guarded : SchedulerPc → Bool
  | pass _ => true
  | query _ => true
  | _ => false

section Step

variable (zones : ZoneInfo) (session : Zone) (names : Nat → String)

/-- `names n` is the name that the `n`-th registration in this process is for. -/
inductive SchedulerStep : IdleScheduler → SchedulerAct → IdleScheduler → Prop where
  | stop {s : IdleScheduler} (hpc : s.pc = .test) (hstop : stopSet s.wakeup = true) :
      SchedulerStep s .test { s with pc := .done }
  | go {s : IdleScheduler} (hpc : s.pc = .test) (hstop : stopSet s.wakeup = false) :
      SchedulerStep s .test { s with pc := .current }
  | current {s : IdleScheduler} (hpc : s.pc = .current) :
      SchedulerStep s .current { s with pc := .pass s.wakeup.look }
  | pass {s : IdleScheduler} {l : Look Producer} {a : SchedulingAct} {db : Scheduling}
      (hpc : s.pc = .pass l) (hown : a.pass = some ownPass) (hne : a ≠ .commit ownPass)
      (ha : SchedulingStep zones session s.db a db) :
      SchedulerStep s (.pass a) { s with db := db }
  | commit {s : IdleScheduler} {l : Look Producer} {p : Pass} {db : Scheduling}
      (hpc : s.pc = .pass l) (hp : s.db.passes ownPass = some p)
      (ha : SchedulingStep zones session s.db (.commit ownPass) db) :
      SchedulerStep s (.commit true)
        { s with db := db, pc := .notify l (p.handled.any (·.2.key.isSome)) }
  -- committed, and the reply lost
  | commitUnseen {s : IdleScheduler} {l : Look Producer} {db : Scheduling} (hpc : s.pc = .pass l)
      (ha : SchedulingStep zones session s.db (.commit ownPass) db) :
      SchedulerStep s (.commit false) { s with db := db, pc := .pause }
  -- `if fired: wakeup.wake()`
  | notify {s : IdleScheduler} {l : Look Producer} {fired : Bool} (hpc : s.pc = .notify l fired) :
      SchedulerStep s .notify
        { s with wakeup := if fired then s.wakeup.bump else s.wakeup, pc := .query l }
  | query {s : IdleScheduler} {l : Look Producer} {now : Int} (hpc : s.pc = .query l) :
      SchedulerStep s (.query now)
        { s with pc := .wait ⟨l, s.wakeup.published, s.db.schedules, now,
            sleepTimeout (s.db.schedules.secondsUntilNextSchedule now)⟩ }
  -- the generation has moved, or the timeout has passed
  | wake {s : IdleScheduler} {sleep : SchedulerSleep} (hpc : s.pc = .wait sleep)
      (hwake : s.wakeup.generation ≠ sleep.look.seen ∨ sleep.timeout.isSome) :
      SchedulerStep s .wake { s with pc := .test }
  -- the server rolls the pass back
  | loseConnection {s : IdleScheduler} (hpc : s.pc.guarded = true) :
      SchedulerStep s .loseConnection { s with db := s.db.setPass ownPass none, pc := .pause }
  | resume {s : IdleScheduler} (hpc : s.pc = .pause) :
      SchedulerStep s .resume { s with pc := .test }
  -- another `wake()` of this process
  | bump {s : IdleScheduler} : SchedulerStep s .bump { s with wakeup := s.wakeup.bump }
  | register {s : IdleScheduler} {n : Nat} {now : Int} {task : String} {args : Json} {when' : When}
      {firstRunAt maxLatenessSeconds : Option Int} {db : Scheduling}
      (ha : SchedulingStep zones session s.db
        (.register now (names n) task args when' firstRunAt maxLatenessSeconds) db) :
      SchedulerStep s
        (.register n (.register now (names n) task args when' firstRunAt maxLatenessSeconds))
        { s with db := db, wakeup := s.wakeup.publish (.change n) }
  | announce {s : IdleScheduler} {p : Producer} (hp : p ∈ s.wakeup.published) :
      SchedulerStep s (.announce p) { s with wakeup := s.wakeup.wake p }
  | setStop {s : IdleScheduler} :
      SchedulerStep s .setStop { s with wakeup := s.wakeup.publish .stopper }
  | other {s : IdleScheduler} {a : SchedulingAct} {db : Scheduling} (hown : a.pass ≠ some ownPass)
      (ha : SchedulingStep zones session s.db a db) :
      SchedulerStep s (.other a) { s with db := db }

def idleScheduler : System IdleScheduler SchedulerAct where
  init s := s = ⟨.start, .empty, .test⟩
  step := SchedulerStep zones session names

end Step

/-- The stopper's `wake()` does not fall between the loop's test of `stop` and its reading of the
generation. -/
def StopsOutsideWindow (s : IdleScheduler) (a : SchedulerAct) : Prop :=
  a = .announce .stopper → s.pc ≠ .current

/-! ## What `seconds_until_next_schedule` is the time until -/

namespace Schedules

variable {t : Schedules} {now : Int}

theorem secondsUntilNextSchedule_isLeast {d : Int}
    (h : t.secondsUntilNextSchedule now = some d) :
    IsLeast { x | ∃ r ∈ t.rows, r.nextRunAt = x } (now + d) := by
  obtain ⟨least, hmin, hd⟩ := Option.map_eq_some_iff.mp h
  obtain ⟨hmem, hle⟩ := List.min?_eq_some_iff.mp hmin
  rw [show now + d = least by omega]
  constructor
  · exact List.mem_map.mp hmem
  · rintro x ⟨r, hr, hx⟩
    rw [← hx]
    exact hle r.nextRunAt (List.mem_map_of_mem hr)

theorem secondsUntilNextSchedule_none (h : t.secondsUntilNextSchedule now = none) :
    t.rows = [] := by
  have hnil := List.min?_eq_none_iff.mp (Option.map_eq_none_iff.mp h)
  exact List.map_eq_nil_iff.mp hnil

end Schedules

/-! ## The loop -/

/-- The schedules of the registrations `l` are in the table. -/
def Shows (names : Nat → String) (t : Schedules) (l : List Producer) : Prop :=
  ∀ n, Producer.change n ∈ l → ∃ row, t.row (names n) = some row

/-- What the loop knows at each point about what it has taken down. -/
def SchedulerPc.Informed (names : Nat → String) (wakeup : Wakeup) : SchedulerPc → Prop
  | current => Producer.stopper ∉ wakeup.woken
  | pass l => wakeup.Sound l ∧ Producer.stopper ∉ l.woken
  | notify l _ => wakeup.Sound l ∧ Producer.stopper ∉ l.woken
  | query l => wakeup.Sound l ∧ Producer.stopper ∉ l.woken
  | wait sleep => wakeup.Sound sleep.look ∧ Producer.stopper ∉ sleep.look.woken ∧
      (∀ p ∈ sleep.look.woken, p ∈ sleep.saw) ∧ Shows names sleep.table sleep.saw ∧
      sleep.timeout = sleepTimeout (sleep.table.secondsUntilNextSchedule sleep.now)
  | _ => True

structure IdleScheduler.Inv (names : Nat → String) (s : IdleScheduler) : Prop where
  valid : s.wakeup.Valid
  shows : Shows names s.db.schedules s.wakeup.published
  informed : s.pc.Informed names s.wakeup

variable {zones : ZoneInfo} {session : Zone} {names : Nat → String}

theorem Shows.step {t u : Scheduling} {a : SchedulingAct} {l : List Producer}
    (h : Shows names t.schedules l) (ha : SchedulingStep zones session t a u) :
    Shows names u.schedules l := by
  intro n hn
  obtain ⟨row, hrow⟩ := h n hn
  exact Scheduling.row_of_step ha hrow

theorem Shows.publish {t : Schedules} {wakeup : Wakeup} {p : Producer}
    (h : Shows names t wakeup.published)
    (hp : ∀ n, p = .change n → ∃ row, t.row (names n) = some row) :
    Shows names t (wakeup.publish p).published := by
  intro n hn
  rcases List.mem_cons.mp hn with hnew | hold
  · exact hp n hnew.symm
  · exact h n hold

-- A change of the counter that keeps looks sound keeps the loop informed, away from the point
-- between the test of `stop` and the look.
theorem SchedulerPc.Informed.mono {pc : SchedulerPc} {wakeup wakeup' : Wakeup}
    (h : pc.Informed names wakeup) (hw : ∀ l, wakeup.Sound l → wakeup'.Sound l)
    (hcurrent : pc = .current →
      Producer.stopper ∉ wakeup.woken → Producer.stopper ∉ wakeup'.woken) :
    pc.Informed names wakeup' := by
  cases pc with
  | test | pause | done => trivial
  | current => exact hcurrent rfl h
  | pass l | notify l fired | query l | wait sleep => exact ⟨hw _ h.1, h.2⟩

theorem IdleScheduler.Inv.step {s t : IdleScheduler} {a : SchedulerAct} (h : s.Inv names)
    (hwindow : StopsOutsideWindow s a) (ha : SchedulerStep zones session names s a t) :
    t.Inv names := by
  obtain ⟨hvalid, hshows, hinf⟩ := h
  cases ha with
  | stop hpc hstop => exact ⟨hvalid, hshows, trivial⟩
  | go hpc hstop =>
      -- a stopper that had woken by this test would have set `stop`
      refine ⟨hvalid, hshows, fun hmem ↦ ?_⟩
      rw [stopSet, decide_eq_false_iff_not] at hstop
      exact hstop (hvalid _ hmem)
  | current hpc =>
      rw [hpc] at hinf
      exact ⟨hvalid, hshows, hvalid.look, hinf⟩
  | pass hpc hown hne ha => exact ⟨hvalid, hshows.step ha, hinf⟩
  | commit hpc hp ha =>
      rw [hpc] at hinf
      exact ⟨hvalid, hshows.step ha, hinf⟩
  | commitUnseen hpc ha => exact ⟨hvalid, hshows.step ha, trivial⟩
  | @notify l fired hpc =>
      rw [hpc] at hinf
      have hinf : s.wakeup.Sound l ∧ Producer.stopper ∉ l.woken := hinf
      cases fired with
      | true => exact ⟨hvalid.bump, hshows, hinf.1.bump, hinf.2⟩
      | false => exact ⟨hvalid, hshows, hinf⟩
  | @query l now hpc =>
      rw [hpc] at hinf
      have hinf : s.wakeup.Sound l ∧ Producer.stopper ∉ l.woken := hinf
      exact ⟨hvalid, hshows, hinf.1, hinf.2, hinf.1.published, hshows, rfl⟩
  | wake hpc hwake => exact ⟨hvalid, hshows, trivial⟩
  | loseConnection hpc => exact ⟨hvalid, hshows, trivial⟩
  | resume hpc => exact ⟨hvalid, hshows, trivial⟩
  | bump => exact ⟨hvalid.bump, hshows, hinf.mono (fun _ hl ↦ hl.bump) fun _ hw ↦ hw⟩
  | @register n now task args when' firstRunAt maxLatenessSeconds db ha =>
      refine ⟨hvalid.publish _, (hshows.step ha).publish fun m hm ↦ ?_,
        hinf.mono (fun _ hl ↦ hl.publish _) fun _ hw ↦ hw⟩
      obtain rfl := Producer.change.inj hm
      exact Scheduling.row_of_register ha
  | @announce p hp =>
      refine ⟨hvalid.wake hp, hshows, hinf.mono (fun _ hl ↦ hl.wake p) fun hpc hw hmem ↦ ?_⟩
      rcases List.mem_cons.mp hmem with hnew | hold
      -- the one step that the window excludes
      · exact hwindow (hnew ▸ rfl) hpc
      · exact hw hold
  | setStop =>
      exact ⟨hvalid.publish _, hshows.publish (fun n hn ↦ by cases hn),
        hinf.mono (fun _ hl ↦ hl.publish _) fun _ hw ↦ hw⟩
  | other hown ha => exact ⟨hvalid, hshows.step ha, hinf⟩

theorem idleScheduler_inv {s : IdleScheduler}
    (h : ((idleScheduler zones session names).restrict StopsOutsideWindow).Reachable s) :
    s.Inv names := by
  apply h.invariant
  · rintro s rfl
    exact ⟨fun p hp ↦ absurd hp List.not_mem_nil, fun n hn ↦ absurd hn List.not_mem_nil, trivial⟩
  · intro s a t hs ha
    exact hs.step ha.1 ha.2

/-- As long as the stopper's `wake()` stays out of the window: a scheduler that is asleep at the
generation it has read has missed no finished stopper, its timeout takes every finished
registration into account, and it sleeps until the next schedule is due, or for `MIN_SLEEP`. -/
theorem idle_scheduler_misses_nothing {s : IdleScheduler} {sleep : SchedulerSleep}
    (h : ((idleScheduler zones session names).restrict StopsOutsideWindow).Reachable s)
    (hpc : s.pc = .wait sleep) (hseen : s.wakeup.generation = sleep.look.seen) :
    Producer.stopper ∉ s.wakeup.woken ∧
    (∀ n, Producer.change n ∈ s.wakeup.woken → Producer.change n ∈ sleep.saw ∧
      ∃ row, sleep.table.row (names n) = some row) ∧
    match sleep.timeout with
    | none => sleep.table.rows = []
    | some timeout => ∃ d, timeout = max d MIN_SLEEP ∧
        IsLeast { x | ∃ r ∈ sleep.table.rows, r.nextRunAt = x } (sleep.now + d) := by
  have hinv := idleScheduler_inv h
  have hinf := hinv.informed
  rw [hpc] at hinf
  obtain ⟨hsound, hstop, hsaw, hshows, htimeout⟩ := hinf
  refine ⟨fun hmem ↦ hstop (hsound.fresh hseen _ hmem), fun n hn ↦ ?_, ?_⟩
  · have hmem := hsound.saw hseen hsaw hn
    exact ⟨hmem, hshows n hmem⟩
  · rw [htimeout]
    cases hd : sleep.table.secondsUntilNextSchedule sleep.now with
    | none => exact Schedules.secondsUntilNextSchedule_none hd
    | some d => exact ⟨d, rfl, Schedules.secondsUntilNextSchedule_isLeast hd⟩

/-- Due an hour after the epoch. -/
def firstDigest : Schedule := ⟨"digest", "send_digest", "{}", .interval 3600, none, 3600000000⟩

/-- What happens while a scheduler falls asleep over a schedule that is not due yet. -/
def asleepOverSchedule : List SchedulerAct :=
  [.register 0 (.register 0 "digest" "send_digest" "{}" (.interval 3600) (some 3600000000) none),
    .announce (.change 0), .test, .current, .pass (.begin ownPass 0), .commit true, .notify,
    .query 0]

theorem idle_scheduler_misses_nothing_registered :
    ∃ (s : IdleScheduler) (sleep : SchedulerSleep),
      ((idleScheduler (fun _ ↦ none) Schedule.utc fun _ ↦ "digest").restrict
        StopsOutsideWindow).Reachable s ∧
      s.pc = .wait sleep ∧ sleep.timeout = some 3600000000 ∧
      Producer.stopper ∉ s.wakeup.woken ∧ ∃ row, sleep.table.row "digest" = some row := by
  let table := Schedules.empty.upsert firstDigest
  let db := Scheduling.start.setSchedule table "digest"
  let sleep : SchedulerSleep := ⟨⟨1, [.change 0]⟩, [.change 0], table, 0, some 3600000000⟩
  have hfree : ¬ Scheduling.start.Locked "digest" := by
    rintro ⟨k, p, hp, -⟩
    cases hp
  have hrun : ((idleScheduler (fun _ ↦ none) Schedule.utc fun _ ↦ "digest").restrict
      StopsOutsideWindow).Run ⟨.start, .empty, .test⟩ asleepOverSchedule
        ⟨(db.setPass ownPass (some ⟨0, [], []⟩)).setPass ownPass none,
          ⟨1, [.change 0], [.change 0]⟩, .wait sleep⟩ :=
    .cons ⟨nofun, .register (.register hfree rfl)⟩ <|
    .cons ⟨nofun, .announce (by decide)⟩ <|
    .cons ⟨nofun, .go rfl rfl⟩ <|
    .cons ⟨nofun, .current rfl⟩ <|
    .cons ⟨nofun, .pass rfl rfl nofun (.begin rfl)⟩ <|
    .cons ⟨nofun, .commit rfl rfl (.commit rfl rfl)⟩ <|
    .cons ⟨nofun, .notify rfl⟩ <|
    .cons ⟨nofun, .query rfl⟩ <| .nil _
  have hreach := hrun.reachable (.init rfl)
  have hmain := idle_scheduler_misses_nothing hreach rfl rfl
  exact ⟨_, sleep, hreach, rfl, rfl, hmain.1, (hmain.2.1 0 (by decide)).2⟩

/-- `Runner.stop`, from `set()` to the end of `wake()`, between the test and the look. -/
def asleepOverStop : List SchedulerAct :=
  [.test, .setStop, .announce .stopper, .current, .pass (.begin ownPass 0), .commit true, .notify,
    .query 0]

/-- Stopped, and asleep without a timeout. -/
theorem idle_scheduler_sleeps_through_stop :
    ∃ (s : IdleScheduler) (sleep : SchedulerSleep),
      (idleScheduler (fun _ ↦ none) Schedule.utc fun _ ↦ "digest").Reachable s ∧
      s.pc = .wait sleep ∧ s.wakeup.generation = sleep.look.seen ∧ sleep.timeout = none ∧
      Producer.stopper ∈ s.wakeup.woken := by
  let sleep : SchedulerSleep := ⟨⟨1, [.stopper]⟩, [.stopper], .empty, 0, none⟩
  have hrun : (idleScheduler (fun _ ↦ none) Schedule.utc fun _ ↦ "digest").Run
      ⟨.start, .empty, .test⟩ asleepOverStop
        ⟨(Scheduling.start.setPass ownPass (some ⟨0, [], []⟩)).setPass ownPass none,
          ⟨1, [.stopper], [.stopper]⟩, .wait sleep⟩ :=
    .cons (.go rfl rfl) <| .cons .setStop <| .cons (.announce (by decide)) <|
      .cons (.current rfl) <| .cons (.pass rfl rfl nofun (.begin rfl)) <|
      .cons (.commit rfl rfl (.commit rfl rfl)) <| .cons (.notify rfl) <| .cons (.query rfl) <|
      .nil _
  exact ⟨_, sleep, hrun.reachable (.init rfl), rfl, rfl, rfl, List.mem_singleton_self _⟩

end DurableQueue
