import DurableQueue.Scheduler.SessionZone

/-!
# What a pass decides

On a session with a fixed offset, a pass runs a due schedule for the greatest slot up to `now`, or
for nothing if that is too late, and leaves the least slot after `now`.
-/

open Reasoning

namespace DurableQueue

/-- An interval is positive, and a daily clock is on a known zone that `P` holds of. -/
def When.Admissible (P : Zone → Prop) (zones : ZoneInfo) : When → Prop
  | .interval n => 0 < n
  | .clock c => c.InZone P zones

namespace Schedule

/-- The times the schedule should run at. -/
def slots (zones : ZoneInfo) (row : Schedule) : Set Int :=
  match row.when with
  | .interval n => row.lattice (seconds n)
  | .clock c => c.slots zones

/-- One run for all the missed ones, and the cycle goes on from there. -/
structure Collapses (zones : ZoneInfo) (now : Int) (row : Schedule) (d : Decision) : Prop where
  slot : IsGreatest { x ∈ row.slots zones | x ≤ now } d.slot
  key : d.key = if row.tooLate (now - d.slot) then none else some (slotKey row.name d.slot)
  next : IsLeast { x ∈ row.slots zones | now < x } d.nextRunAt

variable {zones : ZoneInfo} {row : Schedule} {now o : Int} {P : Zone → Prop}

theorem self_mem_lattice (row : Schedule) (period : Int) : row.nextRunAt ∈ row.lattice period :=
  ⟨0, by omega⟩

theorem lattice_of_mem {period x : Int} (hx : x ∈ row.lattice period) :
    ({ row with nextRunAt := x } : Schedule).lattice period = row.lattice period := by
  obtain ⟨k, rfl⟩ := hx
  ext y
  constructor
  · rintro ⟨j, rfl⟩
    refine ⟨k + j, ?_⟩
    change row.nextRunAt + k * period + j * period = _
    rw [Int.add_mul]
    omega
  · rintro ⟨j, rfl⟩
    refine ⟨j - k, ?_⟩
    change _ = row.nextRunAt + k * period + (j - k) * period
    rw [Int.sub_mul]
    omega

-- Moving from slot to slot does not change which times are slots.
theorem slots_of_mem {x : Int} (hx : x ∈ row.slots zones) :
    ({ row with nextRunAt := x } : Schedule).slots zones = row.slots zones := by
  unfold slots at hx ⊢
  cases hwhen : row.when with
  | interval n =>
      rw [hwhen] at hx
      exact lattice_of_mem hx
  | clock c => rfl

-- On a clock that is never changed, wall time is as good as any.
theorem drift_fixed {ho : -dayLength < o ∧ o < dayLength} {period : Int} (hp : 0 < period)
    (point : Int) : row.drift period now (.fixed o ho) point = 0 := by
  obtain ⟨hnonneg, hlt⟩ := sinceLast_bounds row now hp
  have hforward : row.setForward now (.fixed o ho) = 0 := Int.sub_self o
  have hreckoned : row.reckonedOffset period now (.fixed o ho) = o := by
    rw [reckonedOffset, hforward, Int.add_zero, Int.ediv_eq_zero_of_lt hnonneg hlt, Int.zero_mul,
      Int.add_zero, Zone.offset_fixed]
  rw [drift, hreckoned]
  exact Int.sub_self o

theorem lateOnWall_fixed {ho : -dayLength < o ∧ o < dayLength} {period : Int} (hp : 0 < period) :
    row.lateOnWall period now (.fixed o ho) = row.tooLate (now - row.lastPoint period now) := by
  obtain ⟨hnonneg, hlt⟩ := sinceLast_bounds row now hp
  have hforward : row.setForward now (.fixed o ho) = 0 := Int.sub_self o
  have hlast := now_eq_lastPoint_add row period now
  rw [lateOnWall, hforward, Int.add_zero, Int.emod_eq_of_lt hnonneg hlt]
  congr 1
  omega

-- Two lattice points less than a period apart are one.
theorem lattice_le_of_lt {period x y : Int} (hx : x ∈ row.lattice period)
    (hy : y ∈ row.lattice period) (hlt : x < y + period) : x ≤ y := by
  have hdvd : period ∣ y - x := by
    rw [← sub_mem_lattice_iff hy]
    rwa [show y - (y - x) = x by omega]
  by_contra hgt
  have hle : period ≤ x - y := by
    apply Int.le_of_dvd (by omega)
    rw [show x - y = -(y - x) by omega]
    exact Int.dvd_neg.mpr hdvd
  omega

theorem handle_interval_fixed (zones : ZoneInfo) (now : Int) (ho : -dayLength < o ∧ o < dayLength)
    {n : Int} (hwhen : row.when = .interval n) (hn : 0 < n) :
    ∃ d, row.handle zones (.fixed o ho) now = some d ∧ row.Collapses zones now d := by
  have hp : 0 < seconds n := by
    unfold seconds
    omega
  have hslots : row.slots zones = row.lattice (seconds n) := by
    unfold slots
    rw [hwhen]
  have hlast := now_eq_lastPoint_add row (seconds n) now
  obtain ⟨hnonneg, hlt⟩ := sinceLast_bounds row now hp
  have hmem : row.lastPoint (seconds n) now ∈ row.lattice (seconds n) := lastPoint_mem
  have hmem' : row.lastPoint (seconds n) now + seconds n ∈ row.lattice (seconds n) := by
    obtain ⟨k, hk⟩ := hmem
    exact ⟨k + 1, by rw [hk, Int.add_mul]; omega⟩
  refine ⟨_, handle_interval zones _ now hwhen hp, ?_, ?_, ?_⟩
  · simp only [drift_fixed hp, Int.sub_zero, hslots]
    refine ⟨⟨hmem, by omega⟩, ?_⟩
    rintro y ⟨hy, hle⟩
    exact lattice_le_of_lt hy hmem (by omega)
  · simp only [drift_fixed hp, Int.sub_zero, lateOnWall_fixed hp]
  · simp only [drift_fixed hp, Int.sub_zero, hslots]
    refine ⟨⟨hmem', by omega⟩, ?_⟩
    rintro y ⟨hy, hafter⟩
    exact lattice_le_of_lt hmem' hy (by omega)

theorem handle_clock (now : Int) (session : Zone) {c : Clock} (hwhen : row.when = .clock c)
    (hzone : c.InZone Clock.Regular zones) :
    ∃ d, row.handle zones session now = some d ∧ row.Collapses zones now d := by
  have hslots : row.slots zones = c.slots zones := by
    unfold slots
    rw [hwhen]
  obtain ⟨slot, hslot, hgreatest⟩ := Clock.atOrBefore_isGreatest hzone now
  obtain ⟨next, hnext, hleast⟩ := Clock.after_isLeast hzone hgreatest.1.1
  have hrun : row.slotToRun zones session now = some (.inUtc slot) := by
    unfold slotToRun
    rw [hwhen]
    simp only [hslot, Option.map_some]
  have hafter : row.slotAfter zones session (.inUtc slot) = some (.inUtc next) := by
    unfold slotAfter
    rw [hwhen]
    simp only [Moment.instant, hnext, Option.map_some]
  refine ⟨⟨slot, if row.tooLate (now - slot) then none else some (slotKey row.name slot), next⟩,
    ?_, ?_, rfl, ?_⟩
  · unfold handle
    rw [hrun, Option.bind_some, hafter, Option.map_some]
    rfl
  · rw [hslots]
    exact hgreatest
  · rw [hslots]
    -- no slot lies between the last one and now
    refine ⟨⟨hleast.1.1, ?_⟩, fun y hy ↦ hleast.2 ⟨hy.1, ?_⟩⟩
    · by_contra hle
      have hback := hgreatest.2 ⟨hleast.1.1, Int.not_lt.mp hle⟩
      have hforth := hleast.1.2
      omega
    · exact Int.lt_of_le_of_lt hgreatest.1.2 hy.2

/-- The specification of the loop's body. -/
theorem handle_collapses (now : Int) (ho : -dayLength < o ∧ o < dayLength)
    (h : row.when.Admissible Clock.Regular zones) :
    ∃ d, row.handle zones (.fixed o ho) now = some d ∧ row.Collapses zones now d := by
  cases hwhen : row.when with
  | interval n =>
      rw [hwhen] at h
      exact handle_interval_fixed zones now ho hwhen h
  | clock c =>
      rw [hwhen] at h
      exact handle_clock now _ hwhen h

end Schedule

end DurableQueue
