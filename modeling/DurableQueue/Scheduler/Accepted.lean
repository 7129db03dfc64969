import DurableQueue.Scheduler.Calendar
import DurableQueue.Scheduler.Commit

/-!
# Accepted definitions in a pass

Which definitions `register_schedule` accepts, and when a pass over due schedules of such
definitions goes through and leaves each of them in the future.
-/

open Reasoning

namespace DurableQueue

namespace Scheduling

/-- `cur.fetchall()`: the rows as psycopg has loaded them. -/
def fetchall (load : Int → Option Loaded) (now : Int) :
    List Schedule → Option (List (Schedule × Loaded × Loaded))
  | [] => some []
  | row :: due =>
      (load now).bind fun nowIn ↦ (load row.nextRunAt).bind fun nextIn ↦
        (fetchall load now due).map fun rows ↦ (row, nowIn, nextIn) :: rows

/-- The loop over them. -/
def fire (zones : ZoneInfo) (session : Zone) (now : Int) :
    List (Schedule × Loaded × Loaded) → Scheduling → Option Scheduling
  | [], s => some s
  | (row, nowIn, nextIn) :: rows, s =>
      (row.attempt session now nowIn nextIn zones).bind fun d ↦
        fire zones session now rows (finish now s (row, d))

/-- `run_due_schedules` in a transaction that begins at `now` and has locked the rows `due`; `none`
is an exception, which rolls all of it back. -/
def runDueSchedules (load : Int → Option Loaded) (zones : ZoneInfo) (session : Zone) (now : Int)
    (due : List Schedule) (s : Scheduling) : Option Scheduling :=
  (fetchall load now due).bind fun rows ↦ fire zones session now rows s

/-- It returns, has enqueued nothing for a time that is still to come, and no schedule that it has
processed is due any longer. -/
def Completes (load : Int → Option Loaded) (zones : ZoneInfo) (session : Zone) (now : Int)
    (due : List Schedule) (s : Scheduling) : Prop :=
  ∃ t fired, s.runDueSchedules load zones session now due = some t ∧ t.log = fired ++ s.log ∧
    (∀ f ∈ fired, f.job.isSome → f.decision.slot ≤ now) ∧
    ∀ row ∈ due, ∃ r, t.schedules.row row.name = some r ∧ now < r.nextRunAt

end Scheduling

/-- The tables that registrations lead to, wherever passes have moved `next_run_at` meanwhile.
`first_run_at` is any aware datetime. -/
inductive Accepted (zones : ZoneInfo) : Schedules → Prop where
  | empty : Accepted zones .empty
  | register {t u : Schedules} {now : Int} {name task : String} {args : Json} {when' : When}
      {firstRunAt maxLatenessSeconds : Option Int} (h : Accepted zones t)
      (hinterval : ∀ n, when' = .interval n → fitsInt n)
      (hclock : ∀ c, when' = .clock c → c.Built zones)
      (hfirst : ∀ first, firstRunAt = some first →
        ∃ a : Aware, InCalendar a.wall ∧ a.instant = first)
      (hreg : t.registerSchedule zones now name task args when' firstRunAt maxLatenessSeconds =
        some u) : Accepted zones u
  | advance {t : Schedules} {name : String} {instant : Int} (h : Accepted zones t) :
      Accepted zones (t.setNextRunAt name instant)

/-- What a table's definitions have passed when they were registered. -/
theorem Accepted.definition {zones : ZoneInfo} {t : Schedules} {name : String} {row : Schedule}
    (h : Accepted zones t) (hrow : t.row name = some row) :
    (∀ n, row.when = .interval n → fitsInt n) ∧ ∀ c, row.when = .clock c → c.Built zones := by
  induction h generalizing row with
  | empty => cases hrow
  | @register t u now name' task args when' first max h hinterval hclock hfirst hreg ih =>
      obtain ⟨next, rfl, -⟩ := Schedules.registerSchedule_some hreg
      rw [Schedules.row_upsert] at hrow
      by_cases hname : name' = name
      · -- a conflict replaces the whole definition
        rw [if_pos hname, Option.some.injEq] at hrow
        have hwhen : row.when = when' := by
          rw [← hrow]
          cases t.row name <;> rfl
        rw [hwhen]
        exact ⟨hinterval, hclock⟩
      · rw [if_neg hname] at hrow
        exact ih hrow
  | advance h ih =>
      rw [Schedules.row_setNextRunAt] at hrow
      split at hrow
      · obtain ⟨old, hold, rfl⟩ := Option.map_eq_some_iff.mp hrow
        have hdefinition := ih hold
        exact hdefinition
      · exact ih hrow

/-! ## One due schedule -/

namespace Schedule

section Row

variable (session : Zone) (now : Int) (nowIn nextIn : Loaded) (row : Schedule)

/-- What the clock shows now, or would if it had not been changed since `next_run_at`. -/
def nowOnWall : Int :=
  if nowIn.sameZone nextIn then session.wall now else now + session.offset row.nextRunAt

/-- The wall time that is `(now - next_run_at) % period` before that. -/
def wallBack (period : Int) : Int :=
  row.nowOnWall session now nowIn nextIn - (row.elapsed session now nowIn nextIn).fmod period

/-- By `now`, and in the calendar, the clock that `next_run_at` has been loaded by has passed this
wall time, unless a run for that is too late.  It has not passed the one a period on. -/
structure OnTime (n : Int) : Prop where
  nonzero : n ≠ 0
  dated : InCalendar (row.wallBack session now nowIn nextIn (seconds n)) ∧
    InCalendar (row.wallBack session now nowIn nextIn (seconds n) + seconds n)
  slot : row.tooLate (row.lateness session now nowIn nextIn
      (row.wallBack session now nowIn nextIn (seconds n))) ∨
    let zone := nextIn.zone session row.nextRunAt
    let wall := row.wallBack session now nowIn nextIn (seconds n)
    zone.Passed wall now ∧ ¬ zone.Passed wall (firstInstant - 1) ∧ zone.Passed wall lastInstant
  next : ¬ (nextIn.zone session row.nextRunAt).Passed
    (row.wallBack session now nowIn nextIn (seconds n) + seconds n) now

end Row

/-- What a definition has to meet when it is due: psycopg can load `now()` and its `next_run_at`;
an interval is on time, and a clock has a slot in the calendar up to now and a later one, and has
passed none of a later date. -/
def Timely (load : Int → Option Loaded) (zones : ZoneInfo) (session : Zone) (now : Int)
    (row : Schedule) : Prop :=
  ∃ nowIn nextIn, load now = some nowIn ∧ load row.nextRunAt = some nextIn ∧
    match row.when with
    | .interval n => row.OnTime session now nowIn nextIn n
    | .clock c => c.Bracketed zones now ∧ c.InZone (fun z ↦ c.NonePassed z now) zones

/-- What a pass does for one row, `fetchall` included. -/
def process (load : Int → Option Loaded) (zones : ZoneInfo) (session : Zone) (now : Int)
    (row : Schedule) : Option Decision :=
  (load now).bind fun nowIn ↦ (load row.nextRunAt).bind fun nextIn ↦
    row.attempt session now nowIn nextIn zones

/-- It goes through and leaves the schedule in the future. -/
def Advances (load : Int → Option Loaded) (zones : ZoneInfo) (session : Zone) (now : Int)
    (row : Schedule) : Prop :=
  ∃ d, row.process load zones session now = some d ∧ (d.key.isSome → d.slot ≤ now) ∧
    now < d.nextRunAt

variable {zones : ZoneInfo} {session : Zone} {now o n : Int} {row : Schedule} {c : Clock}
  {nowIn nextIn : Loaded}

theorem seconds_ne_zero (hn : n ≠ 0) : seconds n ≠ 0 := by
  unfold seconds
  omega

-- It is less than a period, on its side of 0.
theorem fmod_bounds (elapsed : Int) {period : Int} (hp : period ≠ 0) :
    0 ≤ elapsed.fmod period ∧ elapsed.fmod period < period ∨
      period < elapsed.fmod period ∧ elapsed.fmod period ≤ 0 := by
  rcases Int.lt_or_gt_of_ne hp with hneg | hpos
  · right
    have hneg' : 0 < -period := by omega
    have hnonneg := Int.fmod_nonneg_of_pos (-elapsed) hneg'
    have hlt := Int.fmod_lt_of_pos (-elapsed) hneg'
    rw [Int.neg_fmod_neg] at hnonneg hlt
    omega
  · exact Or.inl ⟨Int.fmod_nonneg_of_pos elapsed hpos, Int.fmod_lt_of_pos elapsed hpos⟩

-- It is whole periods from `next_run_at`.
theorem slot_eq_wallBack (period : Int) :
    (nextIn.zone session row.nextRunAt).wall row.nextRunAt +
        (row.elapsed session now nowIn nextIn).fdiv period * period =
      row.wallBack session now nowIn nextIn period := by
  have hmod := Int.mul_fdiv_add_fmod (row.elapsed session now nowIn nextIn) period
  rw [Int.mul_comm] at hmod
  have hwall : (nextIn.zone session row.nextRunAt).wall row.nextRunAt +
      row.elapsed session now nowIn nextIn = row.nowOnWall session now nowIn nextIn := by
    rw [show (nextIn.zone session row.nextRunAt).wall row.nextRunAt =
      session.wall row.nextRunAt by cases nextIn <;> rfl]
    unfold elapsed nowOnWall Zone.wall
    split <;> omega
  unfold wallBack
  omega

theorem attempt_interval_zero (hwhen : row.when = .interval 0) :
    row.attempt session now nowIn nextIn zones = none := by
  unfold attempt
  rw [hwhen]
  rfl

theorem inCalendar_instant_iff (zone : Zone) (wall : Int) :
    InCalendar (zone.instant wall) ↔
      ¬ zone.Passed wall (firstInstant - 1) ∧ zone.Passed wall lastInstant := by
  rw [← Zone.instant_le_iff, ← Zone.instant_le_iff]
  unfold InCalendar firstInstant lastInstant
  constructor <;> intro h <;> omega

theorem attempt_interval_iff (hwhen : row.when = .interval n) :
    (∃ d, row.attempt session now nowIn nextIn zones = some d ∧
      (d.key.isSome → d.slot ≤ now) ∧ now < d.nextRunAt) ↔
        row.OnTime session now nowIn nextIn n := by
  by_cases hn : n = 0
  · -- `timedelta // timedelta` raises
    subst hn
    rw [attempt_interval_zero hwhen]
    exact ⟨fun ⟨d, hd, _⟩ ↦ (by cases hd), fun h ↦ absurd rfl h.nonzero⟩
  · unfold attempt
    rw [hwhen]
    simp only [if_neg (seconds_ne_zero hn), slot_eq_wallBack]
    constructor
    · rintro ⟨d, hd, hpast, hfuture⟩
      obtain ⟨slot, hslot, hd⟩ := Option.bind_eq_some_iff.mp hd
      obtain ⟨hdated, rfl⟩ := datetime_eq_some.mp hslot
      obtain ⟨key, hkey, hd⟩ := Option.bind_eq_some_iff.mp hd
      obtain ⟨next, hnext, rfl⟩ := Option.map_eq_some_iff.mp hd
      obtain ⟨hdated', rfl⟩ := datetime_eq_some.mp hnext
      refine ⟨hn, ⟨hdated, hdated'⟩, ?_, Zone.instant_le_iff.not.mp (not_le.mpr hfuture)⟩
      by_cases hlate : row.tooLate (row.lateness session now nowIn nextIn
          (row.wallBack session now nowIn nextIn (seconds n)))
      · exact Or.inl hlate
      · rw [if_neg hlate] at hkey
        obtain ⟨utc, hutc, rfl⟩ := Option.map_eq_some_iff.mp hkey
        obtain ⟨hcal, rfl⟩ := datetime_eq_some.mp hutc
        exact Or.inr ⟨Zone.instant_le_iff.mp (hpast rfl), (inCalendar_instant_iff _ _).mp hcal⟩
    · intro h
      have hfuture := not_le.mp (Zone.instant_le_iff.not.mpr h.next)
      simp only [datetime_eq_some.mpr ⟨h.dated.1, rfl⟩, datetime_eq_some.mpr ⟨h.dated.2, rfl⟩,
        Option.bind_some]
      by_cases hlate : row.tooLate (row.lateness session now nowIn nextIn
          (row.wallBack session now nowIn nextIn (seconds n)))
      · rw [if_pos hlate]
        exact ⟨_, rfl, fun hkey ↦ (by cases hkey), hfuture⟩
      · obtain ⟨hpassed, hcal⟩ := h.slot.resolve_left hlate
        rw [if_neg hlate]
        simp only [datetime_eq_some.mpr ⟨(inCalendar_instant_iff _ _).mpr hcal, rfl⟩]
        exact ⟨_, rfl, fun _ ↦ Zone.instant_le_iff.mpr hpassed, hfuture⟩

theorem attempt_clock_iff (hwhen : row.when = .clock c) :
    (∃ d, row.attempt session now nowIn nextIn zones = some d ∧
      (d.key.isSome → d.slot ≤ now) ∧ now < d.nextRunAt) ↔ c.Moves zones now := by
  unfold attempt
  rw [hwhen]
  constructor
  · rintro ⟨d, hd, -, hfuture⟩
    obtain ⟨slot, hslot, hd⟩ := Option.bind_eq_some_iff.mp hd
    obtain ⟨next, hnext, rfl⟩ := Option.map_eq_some_iff.mp hd
    exact ⟨slot, next, hslot, hnext, Clock.atOrBeforeDated_le hslot, hfuture⟩
  · rintro ⟨slot, next, hslot, hnext, hle, hlt⟩
    refine ⟨⟨slot, if row.tooLate (now - slot) then none else some (slotKey row.name slot), next⟩,
      ?_, fun _ ↦ hle, hlt⟩
    simp only [hslot, hnext, Option.bind_some, Option.map_some]

theorem advances_iff_timely {load : Int → Option Loaded}
    (hzones : ∀ name z, zones name = some z → z.RisesWithinDay ∧ SteadyAtEnds z)
    (hbuilt : ∀ c, row.when = .clock c → c.Built zones) :
    row.Advances load zones session now ↔ row.Timely load zones session now := by
  unfold Advances Timely process
  cases hnow : load now with
  | none => simp only [Option.bind_none, reduceCtorEq, false_and, exists_false]
  | some nowIn =>
      cases hnext : load row.nextRunAt with
      | none =>
          simp only [Option.bind_none, Option.bind_some, reduceCtorEq, false_and, and_false,
            exists_false]
      | some nextIn =>
          simp only [Option.bind_some, Option.some.injEq, exists_and_left, exists_eq_left']
          cases hwhen : row.when with
          | interval n => exact attempt_interval_iff hwhen
          | clock c =>
              rw [attempt_clock_iff hwhen]
              exact Clock.moves_iff hzones (hbuilt c hwhen)

/-! ## Away from the ends of the calendar -/

-- At an offset, a difference in UTC is that on the wall.
theorem elapsed_inSession (nextIn : Loaded) :
    row.elapsed session now .inSession nextIn =
      (nextIn.zone session row.nextRunAt).wall now -
        (nextIn.zone session row.nextRunAt).wall row.nextRunAt := by
  cases nextIn with
  | inSession => rfl
  | atOffset =>
      change now - row.nextRunAt =
        now + session.offset row.nextRunAt - (row.nextRunAt + session.offset row.nextRunAt)
      omega

theorem lateness_inSession (nextIn : Loaded) (slot : Int) :
    row.lateness session now .inSession nextIn slot =
      (nextIn.zone session row.nextRunAt).wall now - slot := by
  cases nextIn with
  | inSession => rfl
  | atOffset =>
      change now - (slot - session.offset row.nextRunAt) = now + session.offset row.nextRunAt - slot
      omega

theorem wallBack_inSession (row : Schedule) (session : Zone) (now : Int) (nextIn : Loaded)
    (period : Int) :
    row.wallBack session now .inSession nextIn period =
      (nextIn.zone session row.nextRunAt).wall now -
        (row.elapsed session now .inSession nextIn).fmod period := by
  unfold wallBack
  congr 1
  cases nextIn <;> rfl

theorem handle_interval_eq (nextIn : Loaded) (hwhen : row.when = .interval n) (hn : n ≠ 0) :
    row.handle zones (nextIn.zone session row.nextRunAt) now = some
      (let zone := nextIn.zone session row.nextRunAt
        let wall := row.wallBack session now .inSession nextIn (seconds n)
        { slot := zone.instant wall
          key := if row.tooLate (row.lateness session now .inSession nextIn wall) then none
            else some (slotKey row.name (zone.instant wall))
          nextRunAt := zone.instant (wall + seconds n) }) := by
  have hslot : row.slotToRun zones (nextIn.zone session row.nextRunAt) now =
      some (.onWall (row.wallBack session now .inSession nextIn (seconds n))) := by
    unfold slotToRun
    rw [hwhen]
    simp only [if_neg (seconds_ne_zero hn), ← elapsed_inSession, slot_eq_wallBack]
  unfold handle
  rw [hslot, Option.bind_some]
  unfold slotAfter
  rw [hwhen]
  simp only [Option.map_some, Moment.instant, Moment.since, lateness_inSession]
  rfl

theorem handle_clock_eq (hwhen : row.when = .clock c) :
    row.handle zones session now =
      (c.atOrBefore zones now).bind fun slot ↦ (c.after zones slot).map fun next ↦
        ⟨slot, if row.tooLate (now - slot) then none else some (slotKey row.name slot), next⟩ := by
  unfold handle slotToRun slotAfter
  rw [hwhen]
  cases hslot : c.atOrBefore zones now with
  | none => simp only [hslot, Option.map_none, Option.bind_none]
  | some slot =>
      simp only [hslot, Option.map_some, Option.bind_some, Moment.instant, Moment.since,
        Option.map_map]
      rfl

/-- Where an interval does not reach an end of the calendar, a pass does what it would without one,
in the zone that `next_run_at` has been loaded in. -/
theorem attempt_eq_handle (nextIn : Loaded) (hnow : Inside 25000 now)
    (hfits : ∀ n, row.when = .interval n → fitsInt n) :
    row.attempt session now .inSession nextIn zones =
      row.handle zones (nextIn.zone session row.nextRunAt) now := by
  cases hwhen : row.when with
  | interval n =>
      by_cases hn : n = 0
      · subst hn
        rw [attempt_interval_zero hwhen]
        unfold handle slotToRun
        rw [hwhen]
        rfl
      · rw [handle_interval_eq nextIn hwhen hn]
        unfold attempt
        rw [hwhen]
        simp only [if_neg (seconds_ne_zero hn), slot_eq_wallBack]
        have hfit := of_decide_eq_true (hfits n hwhen)
        have hback := row.wallBack_inSession session now nextIn (seconds n)
        have hbounds := fmod_bounds (row.elapsed session now .inSession nextIn) (seconds_ne_zero hn)
        generalize row.wallBack session now .inSession nextIn (seconds n) = wall at *
        generalize nextIn.zone session row.nextRunAt = zone at *
        have hoff := zone.offset_bounded now
        have hread := zone.read_bounded wall
        -- the datetimes that are built are within one period and two days of now
        unfold seconds at hback hbounds
        unfold Zone.wall at hback
        have hdated : datetime wall = some wall := by
          refine hnow.datetime ?_ ?_ <;> unfold dayLength at * <;> omega
        have hutc : datetime (zone.instant wall) = some (zone.instant wall) := by
          refine hnow.datetime ?_ ?_ <;> unfold Zone.instant dayLength at * <;> omega
        have hnext : datetime (wall + seconds n) = some (wall + seconds n) := by
          refine hnow.datetime ?_ ?_ <;> unfold seconds dayLength at * <;> omega
        simp only [hdated, hutc, hnext, Option.bind_some, Option.map_some]
        split <;> rfl
  | clock c =>
      have hinside : Inside 30 now := by
        unfold Inside InCalendar dayLength at *
        omega
      rw [handle_clock_eq hwhen]
      unfold attempt
      rw [hwhen]
      simp only
      rw [Clock.atOrBeforeDated_eq hinside (by unfold dayLength; omega)
        (by unfold dayLength; omega)]
      cases hslot : c.atOrBefore zones now with
      | none => rfl
      | some slot =>
          obtain ⟨hfar, hpast⟩ := Clock.atOrBefore_near hslot
          rw [Option.bind_some, Option.bind_some,
            Clock.afterDated_eq hinside (by unfold dayLength at *; omega)
              (by unfold dayLength at *; omega)]

/-- There, a schedule's own part of the condition is left. -/
theorem timely_iff_of_inside {load : Int → Option Loaded} (hloads : Loads session load)
    (hnow : Inside 30 now)
    (hnext : InCalendar row.nextRunAt ∧ InCalendar (session.wall row.nextRunAt))
    (hbuilt : ∀ c, row.when = .clock c → c.Built zones) :
    row.Timely load zones session now ↔
      match row.when with
      | .interval n => row.OnTime session now .inSession .inSession n
      | .clock c => c.InZone (fun z ↦ c.NonePassed z now) zones := by
  unfold Timely
  rw [hloads.inside hnow, hloads.inSession _ hnext.1 hnext.2]
  simp only [Option.some.injEq, exists_and_left, exists_eq_left']
  cases hwhen : row.when with
  | interval n => exact Iff.rfl
  | clock c => exact and_iff_right (Clock.bracketed_of_inside (hbuilt c hwhen) hnow)

/-- At a fixed offset it only matters that the interval is positive. -/
theorem onTime_fixed_iff {ho : -dayLength < o ∧ o < dayLength} (hnow : Inside 25000 now)
    (hfit : fitsInt n) : row.OnTime (.fixed o ho) now nowIn nextIn n ↔ 0 < n := by
  have helapsed : row.elapsed (.fixed o ho) now nowIn nextIn = now - row.nextRunAt := by
    unfold elapsed Zone.wall
    simp only [Zone.offset_fixed]
    split <;> omega
  have hback : row.wallBack (.fixed o ho) now nowIn nextIn (seconds n) =
      now + o - (now - row.nextRunAt).fmod (seconds n) := by
    unfold wallBack nowOnWall
    rw [helapsed]
    split <;> rfl
  have hinstant (wall : Int) :
      (nextIn.zone (.fixed o ho) row.nextRunAt).instant wall = wall - o := by
    cases nextIn <;> rfl
  have hbounds (hn : n ≠ 0) := fmod_bounds (now - row.nextRunAt) (seconds_ne_zero hn)
  constructor
  · rintro ⟨hnonzero, -, -, hnext⟩
    rw [← Zone.instant_le_iff, hinstant, hback] at hnext
    have hbounds := hbounds hnonzero
    unfold seconds at *
    omega
  · intro hn
    have hfit := of_decide_eq_true hfit
    have hbounds := hbounds hn.ne'
    refine ⟨hn.ne', ?_, Or.inr ?_, ?_⟩
    · rw [hback]
      unfold Inside InCalendar seconds dayLength at *
      omega
    · simp only [← Zone.instant_le_iff, hinstant, hback]
      unfold Inside InCalendar firstInstant lastInstant seconds dayLength at *
      omega
    · rw [← Zone.instant_le_iff, hinstant, hback]
      unfold seconds at *
      omega

end Schedule

namespace Scheduling

variable {load : Int → Option Loaded} {zones : ZoneInfo} {session : Zone} {now : Int}
  {s t : Scheduling} {due : List Schedule}

-- Rows that cannot be loaded make the pass raise before it begins, which comes to the same.
theorem runDueSchedules_cons (row : Schedule) :
    s.runDueSchedules load zones session now (row :: due) =
      (row.process load zones session now).bind fun d ↦
        (finish now s (row, d)).runDueSchedules load zones session now due := by
  unfold runDueSchedules Schedule.process
  rw [fetchall]
  cases load now with
  | none => rfl
  | some nowIn =>
      cases load row.nextRunAt with
      | none => rfl
      | some nextIn =>
          simp only [Option.bind_some]
          cases fetchall load now due with
          | none =>
              cases row.attempt session now nowIn nextIn zones <;> rfl
          | some rows => rfl

theorem runDueSchedules_isSome (h : ∀ row ∈ due, ∃ d, row.process load zones session now = some d) :
    ∃ t, s.runDueSchedules load zones session now due = some t := by
  induction due generalizing s with
  | nil => exact ⟨s, rfl⟩
  | cons row rest ih =>
      obtain ⟨d, hd⟩ := h row List.mem_cons_self
      rw [runDueSchedules_cons, hd, Option.bind_some]
      exact ih fun r hr ↦ h r (List.mem_cons_of_mem row hr)

theorem row_runDueSchedules_of_notMem {name : String}
    (h : s.runDueSchedules load zones session now due = some t)
    (hname : name ∉ due.map Schedule.name) : t.schedules.row name = s.schedules.row name := by
  induction due generalizing s with
  | nil =>
      cases h
      rfl
  | cons row rest ih =>
      rw [runDueSchedules_cons] at h
      obtain ⟨d, -, hrest⟩ := Option.bind_eq_some_iff.mp h
      obtain ⟨hne, hnot⟩ := not_or.mp (mt List.mem_cons.mpr hname)
      rw [ih hrest hnot, row_finish, if_neg (Ne.symm hne)]

-- A schedule that has been processed is due next when its decision says.
theorem row_runDueSchedules {row : Schedule}
    (h : s.runDueSchedules load zones session now due = some t)
    (hnodup : (due.map Schedule.name).Nodup) (hrow : row ∈ due) :
    ∃ d, row.process load zones session now = some d ∧
      t.schedules.row row.name =
        (s.schedules.row row.name).map fun r ↦ { r with nextRunAt := d.nextRunAt } := by
  induction due generalizing s with
  | nil => exact absurd hrow List.not_mem_nil
  | cons first rest ih =>
      rw [runDueSchedules_cons] at h
      obtain ⟨d, hd, hrest⟩ := Option.bind_eq_some_iff.mp h
      obtain ⟨hnew, hnodup⟩ := List.nodup_cons.mp hnodup
      rcases List.mem_cons.mp hrow with rfl | hmem
      · exact ⟨d, hd, by rw [row_runDueSchedules_of_notMem hrest hnew, row_finish, if_pos rfl]⟩
      · obtain ⟨d', hd', hafter⟩ := ih hrest hnodup hmem
        have hne : first.name ≠ row.name := fun he ↦ hnew (he ▸ List.mem_map_of_mem hmem)
        rw [row_finish, if_neg hne] at hafter
        exact ⟨d', hd', hafter⟩

-- One entry for each of the due schedules, with a job if there is a key.
theorem log_runDueSchedules (h : s.runDueSchedules load zones session now due = some t) :
    ∃ fired, t.log = fired ++ s.log ∧
      (∀ f ∈ fired, f.row ∈ due ∧ f.row.process load zones session now = some f.decision ∧
        f.job.isSome = f.decision.key.isSome) ∧
      ∀ row ∈ due, ∃ f ∈ fired, f.row = row := by
  induction due generalizing s with
  | nil =>
      cases h
      exact ⟨[], rfl, fun f hf ↦ absurd hf List.not_mem_nil, fun r hr ↦ absurd hr List.not_mem_nil⟩
  | cons row rest ih =>
      rw [runDueSchedules_cons] at h
      obtain ⟨d, hd, hrest⟩ := Option.bind_eq_some_iff.mp h
      obtain ⟨fired, hlog, hfired, hall⟩ := ih hrest
      obtain ⟨job, hfirst, hjob⟩ : ∃ job,
          (finish now s (row, d)).log = ⟨row, now, d, job⟩ :: s.log ∧
          job.isSome = d.key.isSome := by
        cases hkey : d.key with
        | none => exact ⟨none, (job_finish_none (h := (row, d)) now s hkey).1, rfl⟩
        | some key =>
            obtain ⟨id, r, hid, -⟩ := job_finish (h := (row, d)) now s hkey
            exact ⟨some id, hid, rfl⟩
      refine ⟨fired ++ [⟨row, now, d, job⟩], ?_, fun f hf ↦ ?_, fun r hr ↦ ?_⟩
      · rw [hlog, hfirst, List.append_assoc]
        rfl
      · rcases List.mem_append.mp hf with hf | hf
        · obtain ⟨hmem, hdecision⟩ := hfired f hf
          exact ⟨List.mem_cons_of_mem row hmem, hdecision⟩
        · obtain rfl := List.mem_singleton.mp hf
          exact ⟨List.mem_cons_self, hd, hjob⟩
      · rcases List.mem_cons.mp hr with rfl | hr
        · exact ⟨_, List.mem_append_right fired (List.mem_singleton_self _), rfl⟩
        · obtain ⟨f, hf, hfr⟩ := hall r hr
          exact ⟨f, List.mem_append_left _ hf, hfr⟩

/-- A pass goes through if each of its schedules does. -/
theorem completes_iff (hrows : ∀ row ∈ due, s.schedules.row row.name = some row)
    (hnodup : (due.map Schedule.name).Nodup) :
    Completes load zones session now due s ↔ ∀ row ∈ due, row.Advances load zones session now := by
  constructor
  · rintro ⟨t, fired, ht, hlog, hslots, hnext⟩ row hrow
    obtain ⟨d, hd, hafter⟩ := row_runDueSchedules ht hnodup hrow
    obtain ⟨fired', hlog', hfired, hall⟩ := log_runDueSchedules ht
    obtain rfl := List.append_cancel_right (hlog.symm.trans hlog')
    obtain ⟨f, hf, rfl⟩ := hall row hrow
    obtain ⟨-, hdecision, hjob⟩ := hfired f hf
    obtain rfl := Option.some.inj (hd.symm.trans hdecision)
    obtain ⟨r, hr, hfuture⟩ := hnext f.row hrow
    rw [hafter, hrows f.row hrow, Option.map_some, Option.some.injEq] at hr
    subst hr
    exact ⟨_, hd, fun hkey ↦ hslots f hf (hjob.trans hkey), hfuture⟩
  · intro h
    obtain ⟨t, ht⟩ := runDueSchedules_isSome (s := s) fun row hrow ↦
      (h row hrow).imp fun _ ↦ And.left
    obtain ⟨fired, hlog, hfired, -⟩ := log_runDueSchedules ht
    refine ⟨t, fired, ht, hlog, fun f hf hjob ↦ ?_, fun row hrow ↦ ?_⟩
    · obtain ⟨hmem, hdecision, hsome⟩ := hfired f hf
      obtain ⟨d, hd, hslot, -⟩ := h f.row hmem
      obtain rfl := Option.some.inj (hd.symm.trans hdecision)
      exact hslot (hsome.symm.trans hjob)
    · obtain ⟨d, hd, -, hfuture⟩ := h row hrow
      obtain ⟨d', hd', hafter⟩ := row_runDueSchedules ht hnodup hrow
      obtain rfl := Option.some.inj (hd.symm.trans hd')
      rw [hrows row hrow, Option.map_some] at hafter
      exact ⟨_, hafter, hfuture⟩

/-- Timely definitions get every pass through, and no others do.  No zone of the tz database has
ever been set forward by more than a day within a day, or is changed near an end of the calendar. -/
theorem pass_completes_iff (haccepted : Accepted zones s.schedules)
    (hzones : ∀ name z, zones name = some z → z.RisesWithinDay ∧ SteadyAtEnds z)
    (hdue : ∀ row ∈ due, s.schedules.row row.name = some row ∧ row.nextRunAt ≤ now)
    (hnodup : (due.map Schedule.name).Nodup) :
    Completes load zones session now due s ↔
      ∀ row ∈ due, row.Timely load zones session now := by
  rw [completes_iff (fun row hrow ↦ (hdue row hrow).1) hnodup]
  refine forall₂_congr fun row hrow ↦ Schedule.advances_iff_timely hzones ?_
  exact (haccepted.definition (hdue row hrow).1).2

/-- Every `n` seconds from the epoch on. -/
def every (name : String) (n : Int) : Schedule :=
  ⟨name, "send_digest", "{}", .interval n, none, 0⟩

/-- Nothing but schedules. -/
def onlySchedules (schedules : Schedules) : Scheduling := ⟨.empty, schedules, fun _ ↦ none, [], []⟩

def steady : Schedules := ⟨[every "steady" 3600], by decide⟩

/-- Two registrations, the second with an interval of 0 seconds. -/
def mixed : Schedules := ⟨[every "steady" 3600, every "stuck" 0], by decide⟩

def threeInTheMorning : Clock := ⟨.day, ⟨10800000000, by decide⟩, "UTC"⟩

/-- Two registrations, the second with a daily clock. -/
def settled : Schedules :=
  ⟨[every "steady" 3600,
    ⟨"nightly", "send_digest", "{}", .clock threeInTheMorning, none, seconds 10800⟩], by decide⟩

/-- A host that knows no other zone than UTC. -/
def onlyUtc (name : String) : Option Zone :=
  if name = "UTC" then some (.fixed 0 Clock.offset_utc) else none

theorem onlyUtc_tame (name : String) (z : Zone) (hz : onlyUtc name = some z) :
    z.RisesWithinDay ∧ SteadyAtEnds z := by
  unfold onlyUtc at hz
  split at hz
  · obtain rfl := Option.some.inj hz
    exact ⟨fun t t' _ _ ↦ show (0 : Int) - 0 ≤ dayLength by decide,
      fun x hx ↦ absurd hx List.not_mem_nil⟩
  · cases hz

theorem accepted_steady (zones : ZoneInfo) : Accepted zones steady :=
  @Accepted.register zones .empty steady 0 "steady" "send_digest" "{}" (.interval 3600) none none
    .empty (fun n hn ↦ by cases hn; rfl) (fun c hc ↦ by cases hc) (fun f hf ↦ by cases hf) rfl

theorem accepted_mixed (zones : ZoneInfo) : Accepted zones mixed :=
  @Accepted.register zones steady mixed 0 "stuck" "send_digest" "{}" (.interval 0) none none
    (accepted_steady zones) (fun n hn ↦ by cases hn; rfl) (fun c hc ↦ by cases hc)
    (fun f hf ↦ by cases hf) rfl

theorem built_threeInTheMorning : threeInTheMorning.Built onlyUtc :=
  Or.inl ⟨⟨10800000000, by decide⟩, "UTC", rfl⟩

theorem accepted_settled : Accepted onlyUtc settled :=
  @Accepted.register onlyUtc steady settled 0 "nightly" "send_digest" "{}"
    (.clock threeInTheMorning) none none (accepted_steady onlyUtc) (fun n hn ↦ by cases hn)
    (fun c hc ↦ When.clock.inj hc ▸ built_threeInTheMorning) (fun f hf ↦ by cases hf) rfl

/-- psycopg on a session in UTC. -/
def loadUtc (instant : Int) : Option Loaded := if InCalendar instant then some .inSession else none

theorem loads_utc : Loads (.fixed 0 Clock.offset_utc) loadUtc where
  inSession t ht _ := if_pos ht
  refused t ht := by
    have hwall : (Zone.fixed 0 Clock.offset_utc).wall t = t := Int.add_zero t
    rw [hwall] at ht
    exact if_neg ht

/-- At four in the morning both are run once. -/
theorem pass_completes_settled : Completes loadUtc onlyUtc (.fixed 0 Clock.offset_utc)
    (seconds 14400) settled.rows (onlySchedules settled) := by
  refine (pass_completes_iff accepted_settled onlyUtc_tame (by decide) (by decide)).mpr
    fun row hrow ↦ ?_
  rcases List.mem_cons.mp hrow with rfl | hrow
  · have hontime : (every "steady" 3600).OnTime (.fixed 0 Clock.offset_utc) (seconds 14400)
        .inSession .inSession 3600 :=
      (Schedule.onTime_fixed_iff (by decide) (by decide)).mpr (by decide)
    exact (Schedule.timely_iff_of_inside loads_utc (by decide) (by decide)
      fun c hc ↦ by cases hc).mpr hontime
  · obtain rfl := List.mem_singleton.mp hrow
    refine (Schedule.timely_iff_of_inside loads_utc (by decide) (by decide)
      fun c hc ↦ When.clock.inj hc ▸ built_threeInTheMorning).mpr fun _ ↦ ⟨_, rfl, ?_⟩
    exact Clock.nonePassed_of_steady Clock.offset_utc fun t _ _ ↦ rfl

/-- With the other one due as well, the pass raises. -/
theorem pass_rolled_back : ¬ ∀ (load : Int → Option Loaded) (zones : ZoneInfo) (session : Zone)
    (now : Int) (s : Scheduling) (due : List Schedule), Accepted zones s.schedules →
      Loads session load → Inside 30 now →
      (∀ name z, zones name = some z → z.RisesWithinDay ∧ SteadyAtEnds z) →
      (∀ row ∈ due, s.schedules.row row.name = some row ∧ row.nextRunAt ≤ now) →
      (due.map Schedule.name).Nodup → Completes load zones session now due s := by
  intro h
  obtain ⟨t, -, ht, -⟩ := h loadUtc (fun _ ↦ none) (.fixed 0 Clock.offset_utc) (seconds 9000)
    (onlySchedules mixed) mixed.rows (accepted_mixed _) loads_utc (by decide)
    (fun name z hz ↦ by cases hz) (by decide) (by decide)
  have hraised : (onlySchedules mixed).runDueSchedules loadUtc (fun _ ↦ none)
      (.fixed 0 Clock.offset_utc) (seconds 9000) mixed.rows = none := rfl
  rw [hraised] at ht
  cases ht

end Scheduling

end DurableQueue
