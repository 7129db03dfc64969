import DurableQueue.Jobs.Statements
import DurableQueue.Scheduler.Clock

/-!
# Schedules

The table of schedules, `register_schedule`, and what `run_due_schedules` computes for one due row.
psycopg loads a `timestamptz` as an aware datetime in the session's `TimeZone`; Python adds to such
a datetime, and subtracts two of them, on the wall.
-/

open Reasoning

namespace DurableQueue

inductive When where
  | interval (seconds : Int)
  | clock (clock : Clock)
  deriving DecidableEq

/-- `(every, at_time, time_zone)`, NULL for an interval. -/
def When.clock? : When → Option Clock
  | .interval _ => none
  | .clock c => some c

structure Schedule where
  name : String
  task : String
  args : Json
  when : When
  maxLatenessSeconds : Option Int
  nextRunAt : Int
  deriving DecidableEq

structure Schedules where
  rows : List Schedule
  namesNodup : (rows.map Schedule.name).Nodup

namespace Schedules

def empty : Schedules := ⟨[], List.nodup_nil⟩

def row (t : Schedules) (name : String) : Option Schedule := rowAt Schedule.name t.rows name

/-- `UPDATE schedules SET f WHERE name = name`. -/
def update (t : Schedules) (name : String) (f : Schedule → Schedule)
    (hf : ∀ r, (f r).name = r.name) : Schedules where
  rows := updateRows (fun r ↦ r.name = name) f t.rows
  namesNodup := by rw [map_updateRows fun r _ ↦ hf r]; exact t.namesNodup

/-- `INSERT INTO schedules`, under a name that no row has yet. -/
def append (t : Schedules) (r : Schedule) (hr : t.row r.name = none) : Schedules where
  rows := t.rows ++ [r]
  namesNodup := by
    have hnew : r.name ∉ t.rows.map Schedule.name := rowAt_none_iff.mp hr
    rw [List.map_append, List.nodup_append]
    refine ⟨t.namesNodup, List.nodup_singleton _, fun a ha b hb ↦ ?_⟩
    rw [List.mem_singleton.mp hb]
    exact fun h ↦ hnew (h ▸ ha)

/-- `SET next_run_at = instant`. -/
def setNextRunAt (t : Schedules) (name : String) (instant : Int) : Schedules :=
  t.update name (fun r ↦ { r with nextRunAt := instant }) fun _ ↦ rfl

/-- A row in conflict with an EXCLUDED one keeps its place in the cycle, unless its clock moves. -/
def onConflict (excluded r : Schedule) : Schedule :=
  { excluded with
    name := r.name
    nextRunAt :=
      if r.when.clock? ≠ excluded.when.clock? then excluded.nextRunAt else r.nextRunAt }

@[simp] theorem name_onConflict (excluded r : Schedule) : (onConflict excluded r).name = r.name :=
  rfl

/-- `INSERT INTO schedules ... ON CONFLICT (name) DO UPDATE`. -/
def upsert (t : Schedules) (excluded : Schedule) : Schedules :=
  match h : t.row excluded.name with
  | none => t.append excluded h
  | some _ => t.update excluded.name (onConflict excluded) (name_onConflict excluded)

section Lookup

variable {t : Schedules} {name : String} {r : Schedule}

theorem row_eq_some_iff : t.row name = some r ↔ r ∈ t.rows ∧ r.name = name :=
  rowAt_eq_some_iff t.namesNodup

theorem row_name (h : t.row name = some r) : r.name = name := (row_eq_some_iff.mp h).2

theorem row_update (t : Schedules) (changed name : String) (f : Schedule → Schedule)
    (hf : ∀ r, (f r).name = r.name) : (t.update changed f hf).row name =
      if changed = name then (t.row name).map f else t.row name := by
  have hrow : (t.update changed f hf).row name =
      (t.row name).map fun r ↦ if decide (r.name = changed) then f r else r :=
    rowAt_updateRows (fun r _ ↦ hf r) t.rows name
  rw [hrow]
  cases hr : t.row name with
  | none => simp only [Option.map_none, ite_self]
  | some r =>
      rw [Option.map_some, Option.map_some, row_name hr]
      by_cases hc : changed = name
      · rw [if_pos hc, if_pos (decide_eq_true hc.symm)]
      · rw [if_neg hc, if_neg (by simpa using Ne.symm hc)]

theorem row_append (t : Schedules) (r : Schedule) (hr : t.row r.name = none) (name : String) :
    (t.append r hr).row name = if r.name = name then some r else t.row name :=
  rowAt_append_single (rowAt_none_iff.mp hr) name

theorem row_setNextRunAt (t : Schedules) (changed name : String) (instant : Int) :
    (t.setNextRunAt changed instant).row name =
      if changed = name then (t.row name).map fun r ↦ { r with nextRunAt := instant }
      else t.row name :=
  row_update t changed name _ _

-- A row that is there goes through the conflict clause, a new one is inserted as it is.
theorem row_upsert (t : Schedules) (excluded : Schedule) (name : String) :
    (t.upsert excluded).row name =
      if excluded.name = name then some (((t.row name).map (onConflict excluded)).getD excluded)
      else t.row name := by
  unfold upsert
  split
  · rename_i hnone
    rw [row_append]
    by_cases hname : excluded.name = name
    · rw [if_pos hname, if_pos hname, ← hname, hnone, Option.map_none, Option.getD_none]
    · rw [if_neg hname, if_neg hname]
  · rename_i old hold
    rw [row_update]
    by_cases hname : excluded.name = name
    · rw [if_pos hname, if_pos hname, ← hname, hold, Option.map_some, Option.getD_some]
    · rw [if_neg hname, if_neg hname]

end Lookup

/-- `register_schedule` in a transaction that begins at `now`; `none` is a `ValueError`, or a zone
that the host does not know. -/
def registerSchedule (t : Schedules) (zones : ZoneInfo) (now : Int) (name task : String)
    (args : Json) (when' : When) (firstRunAt maxLatenessSeconds : Option Int) :
    Option Schedules :=
  match when' with
  -- `first_run_at only applies to an interval schedule`
  | .clock c =>
      if firstRunAt.isSome then none
      else
        (c.after zones now).map fun first ↦
          t.upsert ⟨name, task, args, when', maxLatenessSeconds, first⟩
  -- `COALESCE(first_run_at, now())`
  | .interval _ =>
      some (t.upsert ⟨name, task, args, when', maxLatenessSeconds, firstRunAt.getD now⟩)

/-- `min(next_run_at) - now()`. -/
def secondsUntilNextSchedule (t : Schedules) (now : Int) : Option Int :=
  (t.rows.map Schedule.nextRunAt).min?.map (· - now)

end Schedules

/-! ## Keys -/

/-- `n` in decimal, with `width` digits. -/
def digits : Nat → Int → List Char
  | 0, _ => []
  | width + 1, n => digits width (n / 10) ++ [Char.ofNat (48 + (n % 10).toNat)]

/-- Year, month and day of the Gregorian calendar, for a day counted from 1970-01-01.  The era of
400 years and the year within it begin in March, which puts the leap day last. -/
def civil (day : Int) : Int × Int × Int :=
  let era := (day + 719468) / 146097
  let dayOfEra := (day + 719468) % 146097
  let yearOfEra := (dayOfEra - dayOfEra / 1460 + dayOfEra / 36524 - dayOfEra / 146096) / 365
  let dayOfYear := dayOfEra - (365 * yearOfEra + yearOfEra / 4 - yearOfEra / 100)
  let month := (5 * dayOfYear + 2) / 153
  let dayOfMonth := dayOfYear - (153 * month + 2) / 5 + 1
  (era * 400 + yearOfEra + (if month < 10 then 0 else 1),
    if month < 10 then month + 3 else month - 9, dayOfMonth)

/-- `isoformat()` of a datetime in UTC: no fraction if the microseconds are 0. -/
def isoformat (instant : Int) : String :=
  let (year, month, day) := civil (instant / dayLength)
  let time := instant % dayLength
  let fraction := if time % 1000000 = 0 then [] else '.' :: digits 6 (time % 1000000)
  String.ofList <|
    digits 4 year ++ '-' :: digits 2 month ++ '-' :: digits 2 day ++
      'T' :: digits 2 (time / 3600000000) ++ ':' :: digits 2 (time / 60000000 % 60) ++
      ':' :: digits 2 (time / 1000000 % 60) ++ fraction ++ "+00:00".toList

/-- `f"sched:{name}:{slot.astimezone(timezone.utc).isoformat()}"`. -/
def slotKey (name : String) (slot : Int) : String := "sched:" ++ name ++ ":" ++ isoformat slot

/-! ## One due row -/

/-- An aware datetime in a pass: on the session's wall, or in UTC. -/
inductive Moment where
  | onWall (wall : Int)
  | inUtc (instant : Int)

/-- `astimezone(timezone.utc)`, and what Postgres stores. -/
def Moment.instant (session : Zone) : Moment → Int
  | .onWall wall => session.instant wall
  | .inUtc instant => instant

/-- `now - moment`: on the wall if both are in the session's zone. -/
def Moment.since (session : Zone) (now : Int) : Moment → Int
  | .onWall wall => session.wall now - wall
  | .inUtc instant => now - instant

/-- What a pass decides for a due row; no key is a run that is skipped. -/
structure Decision where
  slot : Int
  key : Option String
  nextRunAt : Int
  deriving DecidableEq

namespace Schedule

/-- `_slot_to_run`; `none` is an exception. -/
def slotToRun (zones : ZoneInfo) (session : Zone) (now : Int) (row : Schedule) : Option Moment :=
  match row.when with
  | .interval n =>
      let period := seconds n
      let since := session.wall now - session.wall row.nextRunAt
      -- `timedelta // timedelta` divides by zero, or rounds down
      if period = 0 then none
      else some (.onWall (session.wall row.nextRunAt + since.fdiv period * period))
  | .clock c => (c.atOrBefore zones now).map .inUtc

/-- `_slot_after`. -/
def slotAfter (zones : ZoneInfo) (session : Zone) (row : Schedule) (slot : Moment) :
    Option Moment :=
  match row.when with
  | .interval n =>
      match slot with
      | .onWall wall => some (.onWall (wall + seconds n))
      | .inUtc instant => some (.inUtc (instant + seconds n))
  | .clock c => (c.after zones (slot.instant session)).map .inUtc

/-- `lateness > max_lateness_seconds`. -/
def tooLate (row : Schedule) (lateness : Int) : Bool :=
  row.maxLatenessSeconds.any fun m ↦ seconds m < lateness

/-- The body of the loop of `run_due_schedules`, up to its writes. -/
def handle (zones : ZoneInfo) (session : Zone) (now : Int) (row : Schedule) : Option Decision :=
  (row.slotToRun zones session now).bind fun slot ↦
    (row.slotAfter zones session slot).map fun next ↦
      { slot := slot.instant session
        key := if row.tooLate (slot.since session now) then none
          else some (slotKey row.name (slot.instant session))
        nextRunAt := next.instant session }

end Schedule

end DurableQueue
