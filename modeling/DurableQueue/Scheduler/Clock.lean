import DurableQueue.Reasoning.WallClock
import Mathlib.Order.Bounds.Basic
import Mathlib.Tactic.Ring

/-!
# Times on the clock

`Clock` and the two functions of `scheduler.py` that step from an instant to the clock's slots
around it.  Days and instants are integers; the bounds of Python's calendar come later.
-/

open Reasoning

namespace DurableQueue

def hourLength : Int := 3600000000

/-- A `time`, in microseconds since midnight. -/
abbrev Time := { m : Int // 0 ≤ m ∧ m < dayLength }

/-- `at.minute`, in microseconds. -/
def Time.minute (m : Time) : Int := m.val / 60000000 % 60 * 60000000

inductive Every where
  | hour
  | day
  deriving DecidableEq

structure Clock where
  every : Every
  atTime : Time
  timeZone : String
  deriving DecidableEq

/-- The time zones that this host knows. -/
abbrev ZoneInfo := String → Option Zone

/-- `while ahead(day): day += step`, given up after `fuel` tests. -/
def stepDays (ahead : Int → Bool) (step : Int) : Nat → Int → Option Int
  | 0, _ => none
  | fuel + 1, day => if ahead day then stepDays ahead step fuel (day + step) else some day

-- Where a loop stops, and that it has stepped over every day before.
theorem stepDays_some {ahead : Int → Bool} {step : Int} {fuel : Nat} {day stop : Int}
    (h : stepDays ahead step fuel day = some stop) :
    ahead stop = false ∧ ∃ k : Nat, stop = day + k * step ∧
      ∀ j : Nat, j < k → ahead (day + j * step) := by
  induction fuel generalizing day with
  | zero => cases h
  | succ fuel ih =>
      rw [stepDays] at h
      by_cases hday : ahead day
      · rw [if_pos hday] at h
        obtain ⟨hstop, k, hk, hbefore⟩ := ih h
        refine ⟨hstop, k + 1, by rw [hk]; push_cast; ring, fun j hj ↦ ?_⟩
        cases j with
        | zero => simpa using hday
        | succ j =>
            have hj := hbefore j (by omega)
            rw [show day + step + j * step = day + (j + 1 : Nat) * step by push_cast; ring] at hj
            exact hj
      · rw [if_neg hday] at h
        cases h
        exact ⟨by simpa using hday, 0, by simp, fun j hj ↦ absurd hj (Nat.not_lt_zero j)⟩

-- One day where the loop would end is enough, if the fuel reaches it.
theorem stepDays_isSome {ahead : Int → Bool} {step : Int} {fuel k : Nat} {day : Int}
    (hk : k < fuel) (hend : ahead (day + k * step) = false) :
    ∃ stop, stepDays ahead step fuel day = some stop := by
  induction fuel generalizing k day with
  | zero => exact absurd hk (Nat.not_lt_zero k)
  | succ fuel ih =>
      rw [stepDays]
      by_cases hday : ahead day
      · rw [if_pos hday]
        cases k with
        | zero =>
            rw [show day + (0 : Nat) * step = day by simp, hday] at hend
            cases hend
        | succ k =>
            rw [show day + (k + 1 : Nat) * step = day + step + k * step by push_cast; ring] at hend
            exact ih (by omega) hend
      · exact ⟨day, if_neg hday⟩

namespace Clock

/-- `_on`. -/
def on (clock : Clock) (z : Zone) (day : Int) : Int :=
  z.instant (day * dayLength + clock.atTime.val)

/-- The loops turn three times at most, as offsets are under a day. -/
def loopFuel : Nat := 4

/-- `_clock_at_or_before`; `none` is a zone that the host does not know. -/
def atOrBefore (zones : ZoneInfo) (clock : Clock) (instant : Int) : Option Int :=
  match clock.every with
  | .hour =>
      -- `replace(minute=..., second=0, microsecond=0)` in UTC
      let slot := instant / hourLength * hourLength + clock.atTime.minute
      some (if slot ≤ instant then slot else slot - hourLength)
  | .day =>
      (zones clock.timeZone).bind fun z ↦
        (stepDays (fun day ↦ instant < clock.on z day) (-1) loopFuel (z.date instant)).map
          (clock.on z)

/-- `_clock_after`. -/
def after (zones : ZoneInfo) (clock : Clock) (instant : Int) : Option Int :=
  match clock.every with
  | .hour => (clock.atOrBefore zones instant).map (· + hourLength)
  | .day =>
      (zones clock.timeZone).bind fun z ↦
        (stepDays (fun day ↦ clock.on z day ≤ instant) 1 loopFuel (z.date instant)).map
          (clock.on z)

/-! ## Slots -/

/-- The instants at which the clock says that the schedule should run. -/
def slots (zones : ZoneInfo) (clock : Clock) : Set Int :=
  match clock.every with
  | .hour => { x | ∃ h, x = h * hourLength + clock.atTime.minute }
  | .day => { x | ∃ z day, zones clock.timeZone = some z ∧ x = clock.on z day }

/-- A daily clock is on a zone that the host knows and `P` holds of. -/
def InZone (P : Zone → Prop) (zones : ZoneInfo) (clock : Clock) : Prop :=
  clock.every = .day → ∃ z, zones clock.timeZone = some z ∧ P z

variable {zones : ZoneInfo} {clock : Clock} {P : Zone → Prop} {z : Zone} {instant slot day : Int}

theorem mem_slots_hour (hevery : clock.every = .hour) :
    slot ∈ clock.slots zones ↔ ∃ h, slot = h * hourLength + clock.atTime.minute := by
  unfold slots
  rw [hevery]
  exact Iff.rfl

theorem mem_slots_day (hevery : clock.every = .day) (hz : zones clock.timeZone = some z) :
    slot ∈ clock.slots zones ↔ ∃ day, slot = clock.on z day := by
  unfold slots
  rw [hevery]
  constructor
  · rintro ⟨z', day, hz', hslot⟩
    obtain rfl := Option.some.inj (hz.symm.trans hz')
    exact ⟨day, hslot⟩
  · rintro ⟨day, hslot⟩
    exact ⟨z, day, hz, hslot⟩

/-! ## The hour -/

theorem minute_bounds (m : Time) : 0 ≤ m.minute ∧ m.minute < hourLength := by
  unfold Time.minute hourLength
  omega

theorem atOrBefore_hour (hevery : clock.every = .hour) (zones : ZoneInfo) (instant : Int) :
    ∃ x, clock.atOrBefore zones instant = some x ∧
      (∃ h, x = h * hourLength + clock.atTime.minute) ∧ x ≤ instant ∧ instant < x + hourLength := by
  have hm := minute_bounds clock.atTime
  unfold atOrBefore
  rw [hevery]
  refine ⟨_, rfl, ?_⟩
  unfold hourLength at hm ⊢
  -- the minute of this hour, or else that of the last
  by_cases hle : instant / 3600000000 * 3600000000 + clock.atTime.minute ≤ instant
  · rw [if_pos hle]
    exact ⟨⟨instant / 3600000000, rfl⟩, hle, by omega⟩
  · rw [if_neg hle]
    exact ⟨⟨instant / 3600000000 - 1, by omega⟩, by omega, by omega⟩

-- There is one slot in each hour.
theorem eq_of_hour {a b x y m : Int} (hx : x = a * hourLength + m) (hy : y = b * hourLength + m)
    (hxy : x < y) : x + hourLength ≤ y := by
  unfold hourLength at *
  omega

/-! ## The day -/

theorem le_date_on (clock : Clock) (hz : z.DateMonotone) (day : Int) :
    day ≤ z.date (clock.on z day) := by
  have hle := hz.le_date_instant (day * dayLength + clock.atTime.val)
  have hat := clock.atTime.property
  rw [show (day * dayLength + clock.atTime.val) / dayLength = day by
    unfold dayLength at *; omega] at hle
  exact hle

theorem date_on_le (clock : Clock) (hz : z.RisesWithinDay) (day : Int) :
    z.date (clock.on z day) ≤ day + 1 := by
  have hle := hz.date_instant_le (day * dayLength + clock.atTime.val)
  have hat := clock.atTime.property
  rw [show (day * dayLength + clock.atTime.val) / dayLength = day by
    unfold dayLength at *; omega] at hle
  exact hle

theorem on_mono (clock : Clock) (hz : z.RisesWithinDay) {day day' : Int} (h : day ≤ day') :
    clock.on z day ≤ clock.on z day' := by
  rcases Int.lt_or_eq_of_le h with hlt | heq
  · refine hz.instant_le ?_
    unfold dayLength
    omega
  · rw [heq]

-- The instant of a wall time is within a day of it, and so is the wall time of an instant.
theorem on_bounds (clock : Clock) (z : Zone) (day : Int) :
    (day - 1) * dayLength < clock.on z day ∧ clock.on z day < (day + 2) * dayLength := by
  have hread := z.read_bounded (day * dayLength + clock.atTime.val)
  have hat := clock.atTime.property
  unfold on Zone.instant
  unfold dayLength at *
  omega

theorem date_bounds (z : Zone) (t : Int) :
    (z.date t - 1) * dayLength < t ∧ t < (z.date t + 2) * dayLength := by
  have hoff := z.offset_bounded t
  unfold Zone.date Zone.wall
  unfold dayLength at *
  omega

-- Three days back, the clock's time is past on any zone.
theorem on_three_back (clock : Clock) (z : Zone) (t : Int) : clock.on z (z.date t - 3) ≤ t := by
  have hon := on_bounds clock z (z.date t - 3)
  have hdate := date_bounds z t
  unfold dayLength at *
  omega

theorem lt_on_three_forward (clock : Clock) (z : Zone) (t : Int) :
    t < clock.on z (z.date t + 3) := by
  have hon := on_bounds clock z (z.date t + 3)
  have hdate := date_bounds z t
  unfold dayLength at *
  omega

theorem exists_stepBack (clock : Clock) (z : Zone) (t : Int) :
    ∃ day, stepDays (fun day ↦ t < clock.on z day) (-1) loopFuel (z.date t) = some day := by
  refine stepDays_isSome (k := 3) (by decide) (decide_eq_false ?_)
  rw [show z.date t + (3 : Nat) * (-1) = z.date t - 3 by omega]
  exact not_lt.mpr (on_three_back clock z t)

theorem exists_stepForward (clock : Clock) (z : Zone) (t : Int) :
    ∃ day, stepDays (fun day ↦ clock.on z day ≤ t) 1 loopFuel (z.date t) = some day := by
  refine stepDays_isSome (k := 3) (by decide) (decide_eq_false ?_)
  rw [show z.date t + (3 : Nat) * 1 = z.date t + 3 by omega]
  exact not_le.mpr (lt_on_three_forward clock z t)

theorem atOrBefore_day (hevery : clock.every = .day) (hz : zones clock.timeZone = some z)
    (instant : Int) :
    ∃ k : Nat, clock.atOrBefore zones instant = some (clock.on z (z.date instant - k)) ∧
      clock.on z (z.date instant - k) ≤ instant ∧
      ∀ j : Nat, j < k → instant < clock.on z (z.date instant - j) := by
  obtain ⟨day, hday⟩ := exists_stepBack clock z instant
  obtain ⟨hstop, k, rfl, hbefore⟩ := stepDays_some hday
  rw [show z.date instant + k * (-1) = z.date instant - k by ring] at hday hstop
  refine ⟨k, ?_, by simpa using hstop, fun j hj ↦ ?_⟩
  · unfold atOrBefore
    rw [hevery]
    simp only [hz, Option.bind_some, hday, Option.map_some]
  · have hj := hbefore j hj
    rw [show z.date instant + j * (-1) = z.date instant - j by ring] at hj
    exact of_decide_eq_true hj

theorem after_day (hevery : clock.every = .day) (hz : zones clock.timeZone = some z)
    (instant : Int) :
    ∃ k : Nat, clock.after zones instant = some (clock.on z (z.date instant + k)) ∧
      instant < clock.on z (z.date instant + k) ∧
      ∀ j : Nat, j < k → clock.on z (z.date instant + j) ≤ instant := by
  obtain ⟨day, hday⟩ := exists_stepForward clock z instant
  obtain ⟨hstop, k, rfl, hbefore⟩ := stepDays_some hday
  rw [Int.mul_one] at hday hstop
  refine ⟨k, ?_, by simpa using hstop, fun j hj ↦ ?_⟩
  · unfold after
    rw [hevery]
    simp only [hz, Option.bind_some, hday, Option.map_some]
  · have hj := hbefore j hj
    rw [Int.mul_one] at hj
    exact of_decide_eq_true hj

/-! ## Stepping from slot to slot -/

-- Both functions return a slot, on every zone.
theorem after_mem (h : clock.InZone P zones) (instant : Int) :
    ∃ x, clock.after zones instant = some x ∧ x ∈ clock.slots zones ∧ instant < x := by
  cases hevery : clock.every with
  | hour =>
      obtain ⟨x, hx, ⟨h, hslot⟩, -, hlt⟩ := atOrBefore_hour hevery zones instant
      refine ⟨x + hourLength, ?_, (mem_slots_hour hevery).mpr ⟨h + 1, by rw [hslot]; ring⟩, hlt⟩
      unfold after
      rw [hevery]
      simp only [hx, Option.map_some]
  | day =>
      obtain ⟨z, hz, -⟩ := h hevery
      obtain ⟨k, hx, hlt, -⟩ := after_day hevery hz instant
      exact ⟨_, hx, (mem_slots_day hevery hz).mpr ⟨_, rfl⟩, hlt⟩

/-- Where the date never goes backwards and the days keep their order. -/
def Regular (z : Zone) : Prop := z.DateMonotone ∧ z.RisesWithinDay

theorem atOrBefore_isGreatest (h : clock.InZone Regular zones) (instant : Int) :
    ∃ x, clock.atOrBefore zones instant = some x ∧
      IsGreatest { y ∈ clock.slots zones | y ≤ instant } x := by
  cases hevery : clock.every with
  | hour =>
      obtain ⟨x, hx, hslot, hle, hlt⟩ := atOrBefore_hour hevery zones instant
      refine ⟨x, hx, ⟨(mem_slots_hour hevery).mpr hslot, hle⟩, ?_⟩
      rintro y ⟨hy, hyle⟩
      obtain ⟨a, ha⟩ := hslot
      obtain ⟨b, hb⟩ := (mem_slots_hour hevery).mp hy
      by_contra hxy
      have hnext := eq_of_hour ha hb (by omega)
      omega
  | day =>
      obtain ⟨z, hz, hdate, hrises⟩ := h hevery
      obtain ⟨k, hx, hle, hlater⟩ := atOrBefore_day hevery hz instant
      refine ⟨_, hx, ⟨(mem_slots_day hevery hz).mpr ⟨_, rfl⟩, hle⟩, ?_⟩
      rintro y ⟨hy, hyle⟩
      obtain ⟨day, rfl⟩ := (mem_slots_day hevery hz).mp hy
      -- the search starts late enough: no day after today's date is past
      have hstart : day ≤ z.date instant :=
        Int.le_trans (le_date_on clock hdate day) (hdate _ _ hyle)
      apply on_mono clock hrises
      by_contra hday
      have hlate := hlater (z.date instant - day).toNat (by omega)
      rw [show z.date instant - (z.date instant - day).toNat = day by omega] at hlate
      omega

/-- From a slot, the next one. -/
theorem after_isLeast (h : clock.InZone Regular zones) (hslot : slot ∈ clock.slots zones) :
    ∃ x, clock.after zones slot = some x ∧ IsLeast { y ∈ clock.slots zones | slot < y } x := by
  obtain ⟨x, hx, hmem, hlt⟩ := after_mem h slot
  refine ⟨x, hx, ⟨hmem, hlt⟩, ?_⟩
  rintro y ⟨hy, hylt⟩
  cases hevery : clock.every with
  | hour =>
      obtain ⟨x', hx', -, hle', -⟩ := atOrBefore_hour hevery zones slot
      have hxx : x = x' + hourLength := by
        unfold after at hx
        rw [hevery] at hx
        simp only [hx', Option.map_some, Option.some.injEq] at hx
        exact hx.symm
      obtain ⟨a, ha⟩ := (mem_slots_hour hevery).mp hslot
      obtain ⟨b, hb⟩ := (mem_slots_hour hevery).mp hy
      have hnext := eq_of_hour ha hb hylt
      omega
  | day =>
      obtain ⟨z, hz, hdate, hrises⟩ := h hevery
      -- `day₀` is the day of the slot, which its own date may be one ahead of
      obtain ⟨k, hk, -, hpast⟩ := after_day hevery hz slot
      obtain rfl := Option.some.inj (hx.symm.trans hk)
      obtain ⟨day₀, rfl⟩ := (mem_slots_day hevery hz).mp hslot
      obtain ⟨day, rfl⟩ := (mem_slots_day hevery hz).mp hy
      apply on_mono clock hrises
      by_contra hday
      by_cases hstart : day < z.date (clock.on z day₀)
      · -- the search starts early enough: the days before it are not after the slot's own
        have hfirst := date_on_le clock hrises day₀
        have hle := on_mono clock hrises (show day ≤ day₀ by omega)
        omega
      · have hle := hpast (day - z.date (clock.on z day₀)).toNat (by omega)
        rw [show z.date (clock.on z day₀) + (day - z.date (clock.on z day₀)).toNat = day by
          omega] at hle
        omega

end Clock

end DurableQueue
