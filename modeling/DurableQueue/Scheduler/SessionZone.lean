import DurableQueue.Scheduler.Schedule

/-!
# The session's time zone

What `run_due_schedules` decides for an interval schedule, in terms of the session's time zone: the
arithmetic of `_slot_to_run` and `_slot_after` is done on the session's wall, so a slot is read off
that wall by whatever offset holds there.  The zone makes no difference as long as its clock has
been set forward by whole periods, counted from `next_run_at`, when it comes to the slots around
`now`.
-/

open Reasoning

namespace DurableQueue

namespace Schedule

section Interval

variable (row : Schedule) (period now : Int)

/-- The times an interval schedule should run at. -/
def lattice : Set Int := { x | ∃ k, x = row.nextRunAt + k * period }

/-- The last of them up to `now`. -/
def lastPoint : Int := row.nextRunAt + (now - row.nextRunAt) / period * period

def sinceLast : Int := (now - row.nextRunAt) % period

/-- By how much the session's clock has been set forward since `next_run_at`. -/
def setForward (session : Zone) : Int := session.offset now - session.offset row.nextRunAt

/-- The offset on which the session's wall carries the times to run at: that at `next_run_at`, and
the whole periods by which the clock's changes have moved `now` past the last one. -/
def reckonedOffset (session : Zone) : Int :=
  session.offset row.nextRunAt +
    (row.sinceLast period now + row.setForward now session) / period * period

/-- How far the offset by which the wall time of `point` is read is from the one that carries it. -/
def drift (session : Zone) (point : Int) : Int :=
  session.read (point + row.reckonedOffset period now session) -
    row.reckonedOffset period now session

/-- `lateness > max_lateness_seconds`, on the wall. -/
def lateOnWall (session : Zone) : Bool :=
  row.tooLate ((row.sinceLast period now + row.setForward now session) % period)

/-- The offsets of the session's clock around `now`: that at which it first shows the last time to
run is `j` periods more than the one it is reckoned by, and that of the next time `j'` less. -/
structure ShiftedBy (session : Zone) (j j' : Nat) : Prop where
  slot : session.ShownBy
    (row.lastPoint period now + row.reckonedOffset period now session)
    (row.reckonedOffset period now session + j * period)
  next : session.ShownBy
    (row.lastPoint period now + period + row.reckonedOffset period now session)
    (row.reckonedOffset period now session - j' * period)

/-- Both clocks are off by the same whole periods, and what they have been set forward by since
`next_run_at` makes both runs late or neither. -/
structure SameShifts (z₁ z₂ : Zone) : Prop where
  offsets : ∃ j j', row.ShiftedBy period now z₁ j j' ∧ row.ShiftedBy period now z₂ j j'
  lateness : ∀ m, row.maxLatenessSeconds = some m →
    (seconds m < (row.sinceLast period now + row.setForward now z₁) % period ↔
      seconds m < (row.sinceLast period now + row.setForward now z₂) % period)

/-- The session's zone makes no difference, and the schedule keeps to its lattice. -/
def SameDecision (zones : ZoneInfo) (z₁ z₂ : Zone) : Prop :=
  ∃ d, row.handle zones z₁ now = some d ∧ row.handle zones z₂ now = some d ∧
    d.slot ≤ now ∧ now < d.nextRunAt ∧
    d.slot ∈ row.lattice period ∧ d.nextRunAt ∈ row.lattice period

end Interval

variable {row : Schedule} {period now : Int}

theorem now_eq_lastPoint_add (row : Schedule) (period now : Int) :
    now = row.lastPoint period now + row.sinceLast period now := by
  have h := Int.mul_ediv_add_emod (now - row.nextRunAt) period
  rw [Int.mul_comm] at h
  unfold lastPoint sinceLast
  omega

theorem sinceLast_bounds (row : Schedule) (now : Int) (hp : 0 < period) :
    0 ≤ row.sinceLast period now ∧ row.sinceLast period now < period :=
  ⟨Int.emod_nonneg _ hp.ne', Int.emod_lt_of_pos _ hp⟩

theorem lastPoint_mem : row.lastPoint period now ∈ row.lattice period := ⟨_, rfl⟩

-- Lattice points are whole periods apart.
theorem sub_mem_lattice_iff {x d : Int} (hx : x ∈ row.lattice period) :
    x - d ∈ row.lattice period ↔ period ∣ d := by
  obtain ⟨k, rfl⟩ := hx
  constructor
  · rintro ⟨j, hj⟩
    exact ⟨k - j, by rw [Int.mul_comm, Int.sub_mul]; omega⟩
  · rintro ⟨j, rfl⟩
    exact ⟨k - j, by rw [Int.sub_mul, Int.mul_comm period j]; omega⟩

-- The last lattice point is found on the wall, up to whole periods.
theorem wall_lastPoint (hp : 0 < period) (session : Zone) :
    session.wall row.nextRunAt +
        (session.wall now - session.wall row.nextRunAt).fdiv period * period =
      row.lastPoint period now + row.reckonedOffset period now session := by
  -- whole periods of real time, and what is left of it together with the clock's changes
  have hdiff : session.wall now - session.wall row.nextRunAt =
      row.sinceLast period now + row.setForward now session +
        period * ((now - row.nextRunAt) / period) := by
    have h := Int.mul_ediv_add_emod (now - row.nextRunAt) period
    unfold sinceLast setForward Zone.wall
    omega
  rw [Int.fdiv_eq_ediv_of_nonneg _ hp.le, hdiff, Int.add_mul_ediv_left _ _ hp.ne', Int.add_mul]
  unfold lastPoint reckonedOffset Zone.wall
  omega

/-- What a pass decides for an interval schedule. -/
theorem handle_interval (zones : ZoneInfo) (session : Zone) (now : Int) {n : Int}
    (hwhen : row.when = .interval n) (hp : 0 < seconds n) :
    row.handle zones session now = some
      { slot := row.lastPoint (seconds n) now -
          row.drift (seconds n) now session (row.lastPoint (seconds n) now)
        key := if row.lateOnWall (seconds n) now session then none
          else some (slotKey row.name (row.lastPoint (seconds n) now -
            row.drift (seconds n) now session (row.lastPoint (seconds n) now)))
        nextRunAt := row.lastPoint (seconds n) now + seconds n -
          row.drift (seconds n) now session (row.lastPoint (seconds n) now + seconds n) } := by
  -- off the wall again, at the slot and at the next one
  have hread (x : Int) : session.instant (x + row.reckonedOffset (seconds n) now session) =
      x - row.drift (seconds n) now session x := by
    unfold Zone.instant drift
    omega
  -- the lateness is the remainder of the division
  have hsince : session.wall now - (row.lastPoint (seconds n) now +
      row.reckonedOffset (seconds n) now session) =
        (row.sinceLast (seconds n) now + row.setForward now session) % seconds n := by
    have hnow := now_eq_lastPoint_add row (seconds n) now
    have h := Int.mul_ediv_add_emod
      (row.sinceLast (seconds n) now + row.setForward now session) (seconds n)
    rw [Int.mul_comm] at h
    unfold reckonedOffset Zone.wall
    rw [setForward] at h ⊢
    omega
  have hslot : row.slotToRun zones session now = some (.onWall (row.lastPoint (seconds n) now +
      row.reckonedOffset (seconds n) now session)) := by
    unfold slotToRun
    rw [hwhen]
    simp only [if_neg hp.ne', wall_lastPoint hp session]
  have hnext : row.lastPoint (seconds n) now + row.reckonedOffset (seconds n) now session +
      seconds n = row.lastPoint (seconds n) now + seconds n +
        row.reckonedOffset (seconds n) now session := by omega
  have hlate : row.tooLate ((Moment.onWall (row.lastPoint (seconds n) now +
      row.reckonedOffset (seconds n) now session)).since session now) =
        row.lateOnWall (seconds n) now session := by
    rw [Moment.since, hsince, lateOnWall]
  unfold handle
  rw [hslot, Option.bind_some]
  unfold slotAfter
  rw [hwhen]
  simp only [Option.map_some, Moment.instant, hlate, hnext, hread]

theorem drift_eq_iff {session : Zone} {x d : Int} :
    row.drift period now session x = d ↔
      session.ShownBy (x + row.reckonedOffset period now session)
        (row.reckonedOffset period now session + d) := by
  rw [← Zone.read_eq_iff]
  unfold drift
  constructor <;> intro h <;> omega

theorem ShiftedBy.drift_eq {session : Zone} {j j' : Nat}
    (h : row.ShiftedBy period now session j j') :
    row.drift period now session (row.lastPoint period now) = j * period ∧
      row.drift period now session (row.lastPoint period now + period) = -(j' * period) :=
  ⟨drift_eq_iff.mpr h.slot, drift_eq_iff.mpr h.next⟩

theorem lateOnWall_eq_iff {z₁ z₂ : Zone} :
    row.lateOnWall period now z₁ = row.lateOnWall period now z₂ ↔
      ∀ m, row.maxLatenessSeconds = some m →
        (seconds m < (row.sinceLast period now + row.setForward now z₁) % period ↔
          seconds m < (row.sinceLast period now + row.setForward now z₂) % period) := by
  unfold lateOnWall tooLate
  cases row.maxLatenessSeconds with
  | none => simp only [Option.any_none, reduceCtorEq, false_implies, implies_true]
  | some m =>
      simp only [Option.any_some, Option.some.injEq, forall_eq', decide_eq_decide]

/-- The session's zone makes no difference exactly when both clocks are off by the same whole
periods when they come to the slots around `now`. -/
theorem sameDecision_iff (zones : ZoneInfo) (z₁ z₂ : Zone) {n : Int}
    (hwhen : row.when = .interval n) (hn : 0 < n) :
    row.SameDecision (seconds n) now zones z₁ z₂ ↔ row.SameShifts (seconds n) now z₁ z₂ := by
  have hp : 0 < seconds n := by
    unfold seconds
    omega
  have hlast := now_eq_lastPoint_add row (seconds n) now
  obtain ⟨hnonneg, hlt⟩ := sinceLast_bounds row now hp
  have hmem : row.lastPoint (seconds n) now ∈ row.lattice (seconds n) := lastPoint_mem
  have hmem' : row.lastPoint (seconds n) now + seconds n ∈ row.lattice (seconds n) := by
    obtain ⟨k, hk⟩ := hmem
    exact ⟨k + 1, by rw [hk, Int.add_mul]; omega⟩
  constructor
  -- one decision for both: its slots are whole periods from the points they were reckoned from
  · rintro ⟨d, h₁, h₂, hle, hafter, hslot, hnext⟩
    rw [handle_interval zones z₁ now hwhen hp, Option.some.injEq] at h₁
    rw [handle_interval zones z₂ now hwhen hp, ← h₁, Option.some.injEq, Decision.mk.injEq] at h₂
    obtain ⟨hsame, hkey, hsame'⟩ := h₂
    subst h₁
    simp only at hle hafter hslot hnext
    obtain ⟨k, hk⟩ := (sub_mem_lattice_iff hmem).mp hslot
    obtain ⟨k', hk'⟩ := (sub_mem_lattice_iff hmem').mp hnext
    -- less than a period off to the wrong side is not off at all
    have hback : 0 ≤ k := by
      by_contra hneg
      have hmul := Int.mul_le_mul_of_nonneg_left (show k ≤ -1 by omega) hp.le
      omega
    have hahead : k' ≤ 0 := by
      by_contra hpos
      have hmul := Int.mul_le_mul_of_nonneg_left (show 1 ≤ k' by omega) hp.le
      omega
    have hj : seconds n * k = k.toNat * seconds n := by
      rw [Int.toNat_of_nonneg hback, Int.mul_comm]
    have hj' : seconds n * k' = -((-k').toNat * seconds n) := by
      rw [Int.toNat_of_nonneg (by omega), Int.neg_mul, Int.neg_neg, Int.mul_comm]
    refine ⟨⟨k.toNat, (-k').toNat, ⟨?_, ?_⟩, ⟨?_, ?_⟩⟩, lateOnWall_eq_iff.mp ?_⟩
    · exact drift_eq_iff.mp (hk.trans hj)
    · exact drift_eq_iff.mp (hk'.trans hj')
    · exact drift_eq_iff.mp (by omega)
    · exact drift_eq_iff.mp (by omega)
    · cases hl₁ : row.lateOnWall (seconds n) now z₁ <;>
        cases hl₂ : row.lateOnWall (seconds n) now z₂ <;>
        simp [hl₁, hl₂] at hkey ⊢
  -- the same shifts make the same decision, and whole periods keep to the lattice
  · rintro ⟨⟨j, j', h₁, h₂⟩, hlate⟩
    obtain ⟨hslot₁, hnext₁⟩ := h₁.drift_eq
    obtain ⟨hslot₂, hnext₂⟩ := h₂.drift_eq
    have hj : 0 ≤ j * seconds n := Int.mul_nonneg (Int.natCast_nonneg j) hp.le
    have hj' : 0 ≤ j' * seconds n := Int.mul_nonneg (Int.natCast_nonneg j') hp.le
    refine ⟨_, handle_interval zones z₁ now hwhen hp, ?_, ?_, ?_, ?_, ?_⟩
    · rw [handle_interval zones z₂ now hwhen hp, hslot₁, hslot₂, hnext₁, hnext₂,
        lateOnWall_eq_iff.mpr hlate]
    · simp only [hslot₁]
      omega
    · simp only [hnext₁]
      omega
    · simp only [hslot₁]
      exact (sub_mem_lattice_iff hmem).mpr (Dvd.intro_left _ rfl)
    · simp only [hnext₁]
      exact (sub_mem_lattice_iff hmem').mpr (Int.dvd_neg.mpr (Dvd.intro_left _ rfl))

/-- America/New_York in 2026: EST, from 8 March 07:00 UTC EDT, from 1 November 06:00 UTC EST. -/
def newYork : Zone where
  base := seconds (-18000)
  transitions :=
    [(seconds 1772953200, seconds (-14400)), (seconds 1793512800, seconds (-18000))]
  sorted := by decide
  bounded := by decide

def utc : Zone := .fixed 0 (by decide)

/-- Every `n` seconds, next on 7 March 2026 at 12:00 UTC. -/
def everyFrom7March (n : Int) : Schedule where
  name := "digest"
  task := "send_digest"
  args := "{}"
  when := .interval n
  maxLatenessSeconds := none
  nextRunAt := seconds 1772884800

/-- An hourly schedule does not notice a change of one hour. -/
theorem sameDecision_iff_hourly :
    (everyFrom7March 3600).SameDecision (seconds 3600) (seconds 1772974800) (fun _ ↦ none)
      newYork utc :=
  (sameDecision_iff (fun _ ↦ none) newYork utc rfl (by decide)).mpr
    ⟨⟨0, 0, ⟨Zone.read_eq_iff.mp (by decide), Zone.read_eq_iff.mp (by decide)⟩,
      ⟨Zone.read_eq_iff.mp (by decide), Zone.read_eq_iff.mp (by decide)⟩⟩,
      fun m hm ↦ by cases hm⟩

/-- A daily one, due on 8 March at 12:00 UTC, is moved to 11:00 UTC by New York's wall. -/
theorem session_zone_matters :
    ¬ ∀ (zones : ZoneInfo) (z₁ z₂ : Zone) (row : Schedule) (now n : Int),
      row.when = .interval n → 0 < n → row.nextRunAt ≤ now →
        row.SameDecision (seconds n) now zones z₁ z₂ := by
  intro h
  obtain ⟨d, h₁, h₂, -⟩ := h (fun _ ↦ none) newYork utc (everyFrom7March 86400)
    (seconds 1772974800) 86400 rfl (by decide) (by decide)
  have hslots : (everyFrom7March 86400).handle (fun _ ↦ none) newYork (seconds 1772974800) ≠
      (everyFrom7March 86400).handle (fun _ ↦ none) utc (seconds 1772974800) := by
    decide
  exact hslots (h₁.trans h₂.symm)

end Schedule

end DurableQueue
