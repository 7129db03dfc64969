import DurableQueue.Scheduler.Keys

/-!
# Python's calendar

Where a pass can raise: psycopg refuses to load what is before year 1 or after year 9999 on the
session's wall, and so does Python for every date and datetime that the arithmetic comes to.  A
clock's slots on both sides of an instant are found if they are in the calendar, with their dates.
-/

open Reasoning

namespace DurableQueue

/-- 0001-01-01, and the end of 9999-12-31, in UTC. -/
def firstInstant : Int := -719162 * dayLength

def lastInstant : Int := 2932897 * dayLength - 1

/-- A datetime with this wall time; `none` is an OverflowError. -/
def datetime (wall : Int) : Option Int := if InCalendar wall then some wall else none

theorem datetime_eq_some {wall x : Int} : datetime wall = some x ↔ InCalendar wall ∧ x = wall := by
  unfold datetime
  split
  · next h => exact ⟨fun hx ↦ ⟨h, (Option.some.inj hx).symm⟩, fun hx ↦ congrArg some hx.2.symm⟩
  · next h => exact ⟨fun hx ↦ (by cases hx), fun hx ↦ absurd hx.1 h⟩

def date (day : Int) : Option Int := if InCalendar (day * dayLength) then some day else none

/-! ## Loading -/

/-- How psycopg has loaded a `timestamptz`: in the session's zone, or at the offset that Postgres
has sent along. -/
inductive Loaded where
  | inSession
  | atOffset

def Loaded.zone (session : Zone) (instant : Int) : Loaded → Zone
  | .inSession => session
  | .atOffset => .fixed (session.offset instant) (session.offset_bounded instant)

def Loaded.sameZone : Loaded → Loaded → Bool
  | .inSession, .inSession => true
  | _, _ => false

/-- psycopg's loader, `none` being a DataError: what is in the calendar both in UTC and on the
session's wall is loaded in the session's zone, and what is not on the wall is refused. -/
structure Loads (session : Zone) (load : Int → Option Loaded) : Prop where
  inSession : ∀ t, InCalendar t → InCalendar (session.wall t) → load t = some .inSession
  refused : ∀ t, ¬ InCalendar (session.wall t) → load t = none

/-- That many days and more from both ends of the calendar. -/
def Inside (days now : Int) : Prop :=
  InCalendar (now - days * dayLength) ∧ InCalendar (now + days * dayLength)

instance (days now : Int) : Decidable (Inside days now) := inferInstanceAs (Decidable (_ ∧ _))

theorem Inside.datetime {days now t : Int} (h : Inside days now) (hlow : now - days * dayLength ≤ t)
    (hhigh : t ≤ now + days * dayLength) : datetime t = some t := by
  obtain ⟨hfirst, hlast⟩ := h
  unfold InCalendar at hfirst hlast
  exact if_pos ⟨by omega, by omega⟩

theorem Inside.date {days now day : Int} (h : Inside days now)
    (hlow : now - days * dayLength ≤ day * dayLength)
    (hhigh : day * dayLength ≤ now + days * dayLength) : date day = some day := by
  obtain ⟨hfirst, hlast⟩ := h
  unfold InCalendar at hfirst hlast
  exact if_pos ⟨by omega, by omega⟩

/-- No change of the clock within forty days of an end of the calendar. -/
def SteadyAtEnds (z : Zone) : Prop := ∀ x ∈ z.transitions, Inside 40 x.1

theorem SteadyAtEnds.near {z : Zone} {now : Int} (h : SteadyAtEnds z) (hnear : ¬ Inside 30 now) :
    ∃ o, (-dayLength < o ∧ o < dayLength) ∧
      z.SteadyAt (now - 9 * dayLength) (now + 9 * dayLength) o := by
  refine Zone.exists_steadyAt fun x hx ↦ ?_
  have hx := h x hx
  unfold Inside InCalendar dayLength at *
  omega

theorem Loads.inside {session : Zone} {load : Int → Option Loaded} {now : Int}
    (h : Loads session load) (hnow : Inside 30 now) : load now = some .inSession := by
  have hoff := session.offset_bounded now
  obtain ⟨hfirst, hlast⟩ := hnow
  unfold InCalendar dayLength at hfirst hlast
  unfold dayLength at hoff
  refine h.inSession now ?_ ?_
  · unfold InCalendar dayLength
    omega
  · unfold InCalendar Zone.wall dayLength
    omega

/-! ## Clocks -/

namespace Clock

/-- `while ahead(_on(clock, day)): day += step`, and the slot of the day where it ends. -/
def walk (clock : Clock) (z : Zone) (ahead : Int → Bool) (step : Int) : Nat → Int → Option Int
  | 0, _ => none
  | fuel + 1, day =>
      -- `_on` converts to UTC
      (datetime (clock.on z day)).bind fun slot ↦
        if ahead slot then (date (day + step)).bind (clock.walk z ahead step fuel) else some slot

/-- `instant.astimezone(ZoneInfo(clock.time_zone)).date()`. -/
def localDate (z : Zone) (instant : Int) : Option Int :=
  (datetime (z.wall instant)).map (· / dayLength)

/-- `_clock_at_or_before`, which begins by converting `instant` to UTC. -/
def atOrBeforeDated (zones : ZoneInfo) (clock : Clock) (instant : Int) : Option Int :=
  (datetime instant).bind fun utc ↦
    match clock.every with
    | .hour =>
        let slot := utc / hourLength * hourLength + clock.atTime.minute
        if slot ≤ utc then some slot else datetime (slot - hourLength)
    | .day =>
        (zones clock.timeZone).bind fun z ↦ (localDate z utc).bind
          (clock.walk z (fun slot ↦ utc < slot) (-1) loopFuel)

/-- `_clock_after`. -/
def afterDated (zones : ZoneInfo) (clock : Clock) (instant : Int) : Option Int :=
  match clock.every with
  | .hour => (clock.atOrBeforeDated zones instant).bind fun slot ↦ datetime (slot + hourLength)
  | .day =>
      (datetime instant).bind fun utc ↦ (zones clock.timeZone).bind fun z ↦ (localDate z utc).bind
        (clock.walk z (fun slot ↦ slot ≤ utc) 1 loopFuel)

variable {zones : ZoneInfo} {clock : Clock} {z : Zone} {now instant day : Int}

-- Far from the ends of the calendar, the loop is the one without them.
theorem walk_eq (hnow : Inside 30 now) (ahead : Int → Bool) {step : Int}
    (hstep : step = 1 ∨ step = -1) {fuel : Nat}
    (hlow : now - 20 * dayLength ≤ (day - fuel) * dayLength)
    (hhigh : (day + fuel) * dayLength ≤ now + 20 * dayLength) :
    clock.walk z ahead step fuel day =
      (stepDays (fun day ↦ ahead (clock.on z day)) step fuel day).map (clock.on z) := by
  induction fuel generalizing day with
  | zero => rfl
  | succ fuel ih =>
      have hon := on_bounds clock z day
      have hslot : datetime (clock.on z day) = some (clock.on z day) := by
        refine hnow.datetime ?_ ?_ <;> unfold dayLength at * <;> omega
      have hnext : date (day + step) = some (day + step) := by
        refine hnow.date ?_ ?_ <;> unfold dayLength at * <;> omega
      rw [walk, stepDays, hslot, Option.bind_some, hnext, Option.bind_some]
      split
      · refine ih ?_ ?_ <;> unfold dayLength at * <;> omega
      · rfl

theorem localDate_eq (hnow : Inside 30 now) (hlow : now - 12 * dayLength ≤ instant)
    (hhigh : instant ≤ now + 12 * dayLength) : localDate z instant = some (z.date instant) := by
  have hoff := z.offset_bounded instant
  unfold localDate Zone.date
  rw [hnow.datetime] <;> unfold Zone.wall dayLength at *
  · rfl
  · omega
  · omega

theorem atOrBeforeDated_eq (hnow : Inside 30 now) (hlow : now - 12 * dayLength ≤ instant)
    (hhigh : instant ≤ now + 12 * dayLength) :
    clock.atOrBeforeDated zones instant = clock.atOrBefore zones instant := by
  have hutc : datetime instant = some instant := by
    refine hnow.datetime ?_ ?_ <;> unfold dayLength at * <;> omega
  unfold atOrBeforeDated atOrBefore
  rw [hutc, Option.bind_some]
  cases clock.every with
  | hour =>
      have hm := minute_bounds clock.atTime
      simp only
      split
      · rfl
      · refine hnow.datetime ?_ ?_ <;> unfold dayLength hourLength at * <;> omega
  | day =>
      simp only
      congr 1
      funext z
      have hdate := date_bounds z instant
      rw [localDate_eq hnow hlow hhigh, Option.bind_some]
      refine walk_eq hnow _ (Or.inr rfl) ?_ ?_ <;> unfold loopFuel dayLength at * <;> omega

theorem afterDated_eq (hnow : Inside 30 now) (hlow : now - 12 * dayLength ≤ instant)
    (hhigh : instant ≤ now + 12 * dayLength) :
    clock.afterDated zones instant = clock.after zones instant := by
  unfold afterDated after
  cases hevery : clock.every with
  | hour =>
      obtain ⟨x, hx, -, hle, hlt⟩ := atOrBefore_hour hevery zones instant
      simp only [atOrBeforeDated_eq hnow hlow hhigh, hx, Option.bind_some, Option.map_some]
      refine hnow.datetime ?_ ?_ <;> unfold dayLength hourLength at * <;> omega
  | day =>
      have hutc : datetime instant = some instant := by
        refine hnow.datetime ?_ ?_ <;> unfold dayLength at * <;> omega
      simp only [hutc, Option.bind_some]
      congr 1
      funext z
      have hdate := date_bounds z instant
      rw [localDate_eq hnow hlow hhigh, Option.bind_some]
      refine walk_eq hnow _ (Or.inl rfl) ?_ ?_ <;> unfold loopFuel dayLength at * <;> omega

-- The last slot is not far back.
theorem atOrBefore_near {slot : Int} (h : clock.atOrBefore zones instant = some slot) :
    instant - 10 * dayLength ≤ slot ∧ slot ≤ instant := by
  cases hevery : clock.every with
  | hour =>
      obtain ⟨x, hx, -, hle, hlt⟩ := atOrBefore_hour hevery zones instant
      obtain rfl := Option.some.inj (h.symm.trans hx)
      unfold dayLength hourLength at *
      omega
  | day =>
      have hzone : ∃ z, zones clock.timeZone = some z := by
        unfold atOrBefore at h
        rw [hevery] at h
        obtain ⟨z, hz, -⟩ := Option.bind_eq_some_iff.mp h
        exact ⟨z, hz⟩
      obtain ⟨z, hz⟩ := hzone
      obtain ⟨k, hfound, hle, hstepped⟩ := atOrBefore_day hevery hz instant
      obtain rfl := Option.some.inj (h.symm.trans hfound)
      refine ⟨?_, hle⟩
      -- three days back every slot is past
      have hk : k ≤ 3 := by
        by_contra hfar
        have hahead := hstepped 3 (by omega)
        have hback := on_three_back clock z instant
        rw [show z.date instant - (3 : Nat) = z.date instant - 3 by omega] at hahead
        omega
      have hon := on_bounds clock z (z.date instant - k)
      have hdate := date_bounds z instant
      unfold dayLength at *
      omega

/-! ### Slots in the calendar -/

/-- The slots that Python can compute. -/
def datedSlots (zones : ZoneInfo) (clock : Clock) : Set Int :=
  match clock.every with
  | .hour => { x | InCalendar x ∧ ∃ h, x = h * hourLength + clock.atTime.minute }
  | .day => { x | InCalendar x ∧
      ∃ z day, zones clock.timeZone = some z ∧ InCalendar (day * dayLength) ∧ x = clock.on z day }

/-- There is one up to the instant, and one after it. -/
def Bracketed (zones : ZoneInfo) (clock : Clock) (instant : Int) : Prop :=
  ∃ x ∈ clock.datedSlots zones, ∃ y ∈ clock.datedSlots zones, x ≤ instant ∧ instant < y

/-- The last slot is past, and the one after it is still to come. -/
def Moves (zones : ZoneInfo) (clock : Clock) (instant : Int) : Prop :=
  ∃ x y, clock.atOrBeforeDated zones instant = some x ∧ clock.afterDated zones x = some y ∧
    x ≤ instant ∧ instant < y

theorem mem_datedSlots_hour {slot : Int} (hevery : clock.every = .hour) :
    slot ∈ clock.datedSlots zones ↔
      InCalendar slot ∧ ∃ h, slot = h * hourLength + clock.atTime.minute := by
  unfold datedSlots
  rw [hevery]
  exact Iff.rfl

theorem mem_datedSlots_day {slot : Int} (hevery : clock.every = .day)
    (hz : zones clock.timeZone = some z) :
    slot ∈ clock.datedSlots zones ↔
      InCalendar slot ∧ ∃ day, InCalendar (day * dayLength) ∧ slot = clock.on z day := by
  unfold datedSlots
  rw [hevery]
  constructor
  · rintro ⟨hslot, z', day, hz', hday⟩
    obtain rfl := Option.some.inj (hz.symm.trans hz')
    exact ⟨hslot, day, hday⟩
  · rintro ⟨hslot, day, hday⟩
    exact ⟨hslot, z, day, hz, hday⟩

theorem walk_stops {ahead : Int → Bool} {step : Int} {fuel : Nat}
    (hslot : InCalendar (clock.on z day)) (h : ahead (clock.on z day) = false) :
    clock.walk z ahead step (fuel + 1) day = some (clock.on z day) := by
  rw [walk, datetime_eq_some.mpr ⟨hslot, rfl⟩, Option.bind_some, h]
  rfl

theorem walk_steps {ahead : Int → Bool} {step : Int} {fuel : Nat}
    (hslot : InCalendar (clock.on z day)) (h : ahead (clock.on z day) = true)
    (hnext : InCalendar ((day + step) * dayLength)) :
    clock.walk z ahead step (fuel + 1) day = clock.walk z ahead step fuel (day + step) := by
  rw [walk, datetime_eq_some.mpr ⟨hslot, rfl⟩, Option.bind_some, if_pos h, date, if_pos hnext,
    Option.bind_some]

-- Where the loop ends, it is at a date of the calendar, as all are that it steps to.
theorem walk_some {ahead : Int → Bool} {step slot : Int} {fuel : Nat}
    (hday : InCalendar (day * dayLength)) (h : clock.walk z ahead step fuel day = some slot) :
    ahead slot = false ∧ InCalendar slot ∧
      ∃ day, InCalendar (day * dayLength) ∧ slot = clock.on z day := by
  induction fuel generalizing day with
  | zero => cases h
  | succ fuel ih =>
      rw [walk] at h
      obtain ⟨own, hown, h⟩ := Option.bind_eq_some_iff.mp h
      obtain ⟨hcal, rfl⟩ := datetime_eq_some.mp hown
      by_cases hahead : ahead (clock.on z day)
      · rw [if_pos hahead] at h
        obtain ⟨next, hnext, h⟩ := Option.bind_eq_some_iff.mp h
        unfold date at hnext
        split at hnext
        · next hcal' =>
            obtain rfl := Option.some.inj hnext
            exact ih hcal' h
        · cases hnext
      · rw [if_neg hahead, Option.some.injEq] at h
        subst h
        exact ⟨Bool.not_eq_true _ ▸ hahead, hcal, day, hday, rfl⟩

theorem localDate_some (h : localDate z instant = some day) : InCalendar (day * dayLength) := by
  obtain ⟨wall, hwall, rfl⟩ := Option.map_eq_some_iff.mp h
  obtain ⟨hcal, rfl⟩ := datetime_eq_some.mp hwall
  unfold InCalendar dayLength at *
  omega

theorem atOrBeforeDated_hour {slot : Int} (hevery : clock.every = .hour)
    (hslot : ∃ h, slot = h * hourLength + clock.atTime.minute) (hle : slot ≤ instant)
    (hlt : instant < slot + hourLength) :
    clock.atOrBeforeDated zones instant = (datetime instant).bind fun _ ↦ datetime slot := by
  have hm := minute_bounds clock.atTime
  obtain ⟨h, hslot⟩ := hslot
  unfold atOrBeforeDated
  rw [hevery]
  cases hutc : datetime instant with
  | none => rfl
  | some utc =>
      obtain ⟨hcal, rfl⟩ := datetime_eq_some.mp hutc
      simp only [Option.bind_some]
      by_cases hthis : utc / hourLength * hourLength + clock.atTime.minute ≤ utc
      · obtain rfl : slot = utc / hourLength * hourLength + clock.atTime.minute := by
          unfold hourLength at *
          omega
        rw [if_pos hthis, datetime_eq_some.mpr ⟨?_, rfl⟩]
        unfold InCalendar dayLength hourLength at *
        omega
      · rw [if_neg hthis]
        congr 1
        unfold hourLength at *
        omega

theorem afterDated_hour {slot : Int} (hevery : clock.every = .hour)
    (hslot : ∃ h, slot = h * hourLength + clock.atTime.minute) (hcal : InCalendar slot) :
    clock.afterDated zones slot = datetime (slot + hourLength) := by
  unfold afterDated
  rw [hevery]
  simp only [atOrBeforeDated_hour hevery hslot le_rfl (show slot < slot + hourLength by
    unfold hourLength; omega), datetime_eq_some.mpr ⟨hcal, rfl⟩, Option.bind_some]

/-- What the two functions return are slots in the calendar. -/
theorem Moves.bracketed (h : clock.Moves zones instant) : clock.Bracketed zones instant := by
  obtain ⟨x, y, hx, hy, hle, hlt⟩ := h
  cases hevery : clock.every with
  | hour =>
      obtain ⟨slot, -, hslot, hle', hlt'⟩ := atOrBefore_hour hevery zones instant
      rw [atOrBeforeDated_hour hevery hslot hle' hlt'] at hx
      obtain ⟨-, -, hx⟩ := Option.bind_eq_some_iff.mp hx
      obtain ⟨hcal, rfl⟩ := datetime_eq_some.mp hx
      rw [afterDated_hour hevery hslot hcal] at hy
      obtain ⟨hcal', rfl⟩ := datetime_eq_some.mp hy
      obtain ⟨h, hslot⟩ := hslot
      have hnext : x + hourLength = (h + 1) * hourLength + clock.atTime.minute := by
        unfold hourLength at *
        omega
      exact ⟨_, (mem_datedSlots_hour hevery).mpr ⟨hcal, h, hslot⟩, _,
        (mem_datedSlots_hour hevery).mpr ⟨hcal', h + 1, hnext⟩, hle, hlt⟩
  | day =>
      have hbefore := hx
      unfold atOrBeforeDated at hbefore
      rw [hevery] at hbefore
      obtain ⟨utc, -, hbefore⟩ := Option.bind_eq_some_iff.mp hbefore
      obtain ⟨z, hz, hbefore⟩ := Option.bind_eq_some_iff.mp hbefore
      obtain ⟨own, hown, hbefore⟩ := Option.bind_eq_some_iff.mp hbefore
      have hafter := hy
      unfold afterDated at hafter
      rw [hevery] at hafter
      obtain ⟨utc', -, hafter⟩ := Option.bind_eq_some_iff.mp hafter
      obtain ⟨z', hz', hafter⟩ := Option.bind_eq_some_iff.mp hafter
      obtain rfl := Option.some.inj (hz.symm.trans hz')
      obtain ⟨own', hown', hafter⟩ := Option.bind_eq_some_iff.mp hafter
      exact ⟨x, (mem_datedSlots_day hevery hz).mpr (walk_some (localDate_some hown) hbefore).2, y,
        (mem_datedSlots_day hevery hz).mpr (walk_some (localDate_some hown') hafter).2, hle, hlt⟩

theorem moves_hour_iff (hevery : clock.every = .hour) :
    clock.Moves zones instant ↔ clock.Bracketed zones instant := by
  refine ⟨Moves.bracketed, ?_⟩
  rintro ⟨x, hx, y, hy, hle, hlt⟩
  obtain ⟨hxcal, a, ha⟩ := (mem_datedSlots_hour hevery).mp hx
  obtain ⟨hycal, b, hb⟩ := (mem_datedSlots_hour hevery).mp hy
  -- the slots next to the instant are no further away
  obtain ⟨slot, -, ⟨h, hslot⟩, hle', hlt'⟩ := atOrBefore_hour hevery zones instant
  have hcal : InCalendar instant ∧ InCalendar slot ∧ InCalendar (slot + hourLength) := by
    unfold InCalendar hourLength at *
    omega
  refine ⟨slot, slot + hourLength, ?_, ?_, hle', hlt'⟩
  · rw [atOrBeforeDated_hour hevery ⟨h, hslot⟩ hle' hlt', datetime_eq_some.mpr ⟨hcal.1, rfl⟩,
      Option.bind_some, datetime_eq_some.mpr ⟨hcal.2.1, rfl⟩]
  · rw [afterDated_hour hevery ⟨h, hslot⟩ hcal.2.1, datetime_eq_some.mpr ⟨hcal.2.2, rfl⟩]

/-! ### Around an instant -/

/-- No later date than the instant's own has its slot behind it, other than at the same time. -/
def NonePassed (clock : Clock) (z : Zone) (instant : Int) : Prop :=
  ∀ day, z.date instant < day → clock.on z day ≤ instant →
    clock.on z day = clock.on z (z.date instant)

/-- The slot after the last past one is still to come unless a later date's has been passed. -/
theorem nonePassed_iff {first : Int} (hz : z.RisesWithinDay) (hlast : clock.LastPast z instant day)
    (hfirst : clock.FirstComing z (clock.on z day) first) :
    instant < clock.on z first ↔ clock.NonePassed z instant := by
  have hdate := hlast.date
  have hpast := hlast.past
  have hcoming := hfirst.coming
  constructor
  · intro hfuture later hlater hbehind
    have hown := on_mono clock hz hlater.le
    -- the slot of the instant's own date is past too, so that is the one found
    obtain rfl : day = z.date instant := by
      by_contra hne
      have hahead := hlast.rest _ (by omega) le_rfl
      omega
    have hfalls := date_on_le clock hz (z.date instant)
    by_contra hne
    rcases le_or_gt first later with hreached | hstepped
    · have hback := on_mono clock hz hreached
      omega
    · have hback := hfirst.rest later (by omega) hstepped
      omega
  · intro h
    by_contra hbehind
    rcases le_or_gt first day with hearlier | hlater
    · have hback := on_mono clock hz hearlier
      omega
    · rcases le_or_gt first (z.date instant) with hover | hahead
      · have hnext := hlast.rest first hlater hover
        omega
      · have hown := h first hahead (by omega)
        rcases Int.lt_or_eq_of_le hdate with hstepped | rfl
        · have hnext := hlast.rest _ hstepped le_rfl
          omega
        · omega

-- Near the ends of the calendar the clock does not change.
theorem on_steady {o : Int} (ho : -dayLength < o ∧ o < dayLength)
    (h : z.SteadyAt (now - 9 * dayLength) (now + 9 * dayLength) o)
    (hlow : now - 5 * dayLength ≤ day * dayLength) (hhigh : day * dayLength ≤ now + 5 * dayLength) :
    clock.on z day = day * dayLength + clock.atTime.val - o := by
  have hat := clock.atTime.property
  unfold on Zone.instant
  rw [h.read_eq] <;> unfold dayLength at * <;> omega

theorem nonePassed_of_steady {o : Int} (ho : -dayLength < o ∧ o < dayLength)
    (h : z.SteadyAt (now - 9 * dayLength) (now + 9 * dayLength) o) : clock.NonePassed z now := by
  intro later hlater hbehind
  have hat := clock.atTime.property
  have hbounds := on_bounds clock z later
  have hoff : z.offset now = o := h now (by unfold dayLength; omega) (by unfold dayLength; omega)
  unfold Zone.date Zone.wall at hlater
  rw [hoff] at hlater
  have hon : clock.on z later = later * dayLength + clock.atTime.val - o :=
    on_steady ho h (by unfold dayLength at *; omega) (by unfold dayLength at *; omega)
  unfold dayLength at *
  omega

-- Two dates whose slots are next to an instant between others in the calendar are in it too.
theorem Bracketed.dates (h : clock.Bracketed zones now) (hevery : clock.every = .day)
    (hz : zones clock.timeZone = some z) (hrises : z.RisesWithinDay)
    (hpast : clock.on z day ≤ now) (hcoming : now < clock.on z (day + 1)) :
    (InCalendar (day * dayLength) ∧ InCalendar ((day + 1) * dayLength)) ∧
      InCalendar (clock.on z day) ∧ InCalendar (clock.on z (day + 1)) := by
  obtain ⟨x, hx, y, hy, hle, hlt⟩ := h
  obtain ⟨hxcal, a, ha, rfl⟩ := (mem_datedSlots_day hevery hz).mp hx
  obtain ⟨hycal, b, hb, rfl⟩ := (mem_datedSlots_day hevery hz).mp hy
  have hfirst : a ≤ day := by
    by_contra hgt
    have hmono := on_mono clock hrises (show day + 1 ≤ a by omega)
    omega
  have hlast : day + 1 ≤ b := by
    by_contra hgt
    have hmono := on_mono clock hrises (show b ≤ day by omega)
    omega
  have hmono := on_mono clock hrises hfirst
  have hmono' := on_mono clock hrises hlast
  unfold InCalendar dayLength at *
  omega

theorem moves_of_steady {o : Int} (hevery : clock.every = .day)
    (hz : zones clock.timeZone = some z) (hrises : z.RisesWithinDay)
    (ho : -dayLength < o ∧ o < dayLength)
    (h : z.SteadyAt (now - 9 * dayLength) (now + 9 * dayLength) o)
    (hbracketed : clock.Bracketed zones now) : clock.Moves zones now := by
  have hat := clock.atTime.property
  have hoff : z.offset now = o := h now (by unfold dayLength; omega) (by unfold dayLength; omega)
  -- the dates whose slots are next to now
  obtain ⟨last, hpast, hcoming, hown⟩ : ∃ last, last * dayLength + clock.atTime.val - o ≤ now ∧
      now < (last + 1) * dayLength + clock.atTime.val - o ∧
      (z.date now = last ∨ z.date now = last + 1) := by
    refine ⟨(now + o - clock.atTime.val) / dayLength, ?_⟩
    unfold Zone.date Zone.wall
    rw [hoff]
    unfold dayLength at *
    omega
  have hon : clock.on z last = last * dayLength + clock.atTime.val - o :=
    on_steady ho h (by unfold dayLength at *; omega) (by unfold dayLength at *; omega)
  have hon' : clock.on z (last + 1) = (last + 1) * dayLength + clock.atTime.val - o :=
    on_steady ho h (by unfold dayLength at *; omega) (by unfold dayLength at *; omega)
  have hwall : z.wall (clock.on z last) = last * dayLength + clock.atTime.val := by
    unfold Zone.wall
    rw [hon, h] <;> unfold dayLength at * <;> omega
  rw [← hon] at hpast
  rw [← hon'] at hcoming
  obtain ⟨⟨hdate, hdate'⟩, hslot, hslot'⟩ := hbracketed.dates hevery hz hrises hpast hcoming
  refine ⟨clock.on z last, clock.on z (last + 1), ?_, ?_, hpast, hcoming⟩
  · -- from today's date, at most one back
    have hnow : InCalendar now ∧ InCalendar (z.wall now) := by
      unfold Zone.wall
      rw [hoff]
      unfold InCalendar dayLength at *
      omega
    unfold atOrBeforeDated localDate
    rw [hevery, datetime_eq_some.mpr ⟨hnow.1, rfl⟩, Option.bind_some]
    simp only [hz, Option.bind_some, datetime_eq_some.mpr ⟨hnow.2, rfl⟩, Option.map_some]
    change clock.walk z _ (-1) (3 + 1) (z.date now) = _
    have hstop {fuel : Nat} : clock.walk z (fun slot ↦ now < slot) (-1) (fuel + 1) last =
        some (clock.on z last) := walk_stops hslot (decide_eq_false (not_lt.mpr hpast))
    rcases hown with hown | hown
    · rw [hown, hstop]
    · have hback : last + 1 + -1 = last := by omega
      rw [hown, walk_steps hslot' (decide_eq_true hcoming) (hback.symm ▸ hdate), hback, hstop]
  · -- from the slot's own date, one on
    have hreached : InCalendar (last * dayLength + clock.atTime.val) := by
      unfold InCalendar dayLength at *
      omega
    have hown : (last * dayLength + clock.atTime.val) / dayLength = last := by
      unfold dayLength at *
      omega
    unfold afterDated localDate
    rw [hevery]
    simp only [hz, Option.bind_some, datetime_eq_some.mpr ⟨hslot, rfl⟩, hwall,
      datetime_eq_some.mpr ⟨hreached, rfl⟩, Option.map_some, hown]
    change clock.walk z _ 1 (3 + 1) last = _
    rw [walk_steps hslot (decide_eq_true le_rfl) hdate']
    exact walk_stops hslot' (decide_eq_false (not_le.mpr (by omega)))

theorem atOrBeforeDated_le {slot : Int} (h : clock.atOrBeforeDated zones instant = some slot) :
    slot ≤ instant := by
  cases hevery : clock.every with
  | hour =>
      obtain ⟨x, -, hslot, hle, hlt⟩ := atOrBefore_hour hevery zones instant
      rw [atOrBeforeDated_hour hevery hslot hle hlt] at h
      obtain ⟨-, -, h⟩ := Option.bind_eq_some_iff.mp h
      obtain ⟨-, rfl⟩ := datetime_eq_some.mp h
      exact hle
  | day =>
      unfold atOrBeforeDated at h
      rw [hevery] at h
      obtain ⟨utc, hutc, hzone⟩ := Option.bind_eq_some_iff.mp h
      obtain ⟨z, -, hdate⟩ := Option.bind_eq_some_iff.mp hzone
      obtain ⟨own, hown, hwalk⟩ := Option.bind_eq_some_iff.mp hdate
      obtain ⟨-, rfl⟩ := datetime_eq_some.mp hutc
      exact not_lt.mp (of_decide_eq_false (walk_some (localDate_some hown) hwalk).1)

/-- Away from the ends of the calendar there are slots on either side. -/
theorem bracketed_of_inside (hbuilt : clock.Built zones) (hnow : Inside 30 now) :
    clock.Bracketed zones now := by
  cases hevery : clock.every with
  | hour =>
      obtain ⟨slot, -, ⟨h, hslot⟩, hle, hlt⟩ := atOrBefore_hour hevery zones now
      have hnext : slot + hourLength = (h + 1) * hourLength + clock.atTime.minute := by
        unfold hourLength at *
        omega
      refine ⟨slot, (mem_datedSlots_hour hevery).mpr ⟨?_, h, hslot⟩, slot + hourLength,
        (mem_datedSlots_hour hevery).mpr ⟨?_, h + 1, hnext⟩, hle, hlt⟩ <;>
        unfold Inside InCalendar dayLength hourLength at * <;> omega
  | day =>
      obtain ⟨z, hz⟩ := hbuilt.known hevery
      have hdate := date_bounds z now
      have hback := on_bounds clock z (z.date now - 3)
      have hahead := on_bounds clock z (z.date now + 3)
      refine ⟨clock.on z (z.date now - 3), (mem_datedSlots_day hevery hz).mpr ⟨?_, _, ?_, rfl⟩,
        clock.on z (z.date now + 3), (mem_datedSlots_day hevery hz).mpr ⟨?_, _, ?_, rfl⟩,
        on_three_back clock z now, lt_on_three_forward clock z now⟩ <;>
        unfold Inside InCalendar dayLength at * <;> omega

theorem moves_day_iff (hbuilt : clock.Built zones) (hevery : clock.every = .day)
    (hz : zones clock.timeZone = some z) (hrises : z.RisesWithinDay) (hsteady : SteadyAtEnds z) :
    clock.Moves zones now ↔ clock.Bracketed zones now ∧ clock.NonePassed z now := by
  by_cases hinside : Inside 30 now
  · obtain ⟨last, hbefore, hlast⟩ := atOrBefore_last hevery hz now
    obtain ⟨first, hafter, hfirst⟩ := after_first hevery hz (clock.on z last)
    obtain ⟨hfar, hpast⟩ := atOrBefore_near hbefore
    rw [← atOrBeforeDated_eq hinside (by unfold dayLength; omega) (by unfold dayLength; omega)]
      at hbefore
    rw [← afterDated_eq hinside (by unfold dayLength at *; omega) (by unfold dayLength at *; omega)]
      at hafter
    have hmoves : clock.Moves zones now ↔ now < clock.on z first := by
      constructor
      · rintro ⟨x, y, hx, hy, -, hlt⟩
        obtain rfl := Option.some.inj (hbefore.symm.trans hx)
        obtain rfl := Option.some.inj (hafter.symm.trans hy)
        exact hlt
      · exact fun hlt ↦ ⟨_, _, hbefore, hafter, hpast, hlt⟩
    rw [hmoves, nonePassed_iff hrises hlast hfirst]
    exact (and_iff_right (bracketed_of_inside hbuilt hinside)).symm
  · obtain ⟨o, ho, h⟩ := hsteady.near hinside
    exact ⟨fun hmoves ↦ ⟨hmoves.bracketed, nonePassed_of_steady ho h⟩,
      fun hbracketed ↦ moves_of_steady hevery hz hrises ho h hbracketed.1⟩

theorem moves_iff (hzones : ∀ name z, zones name = some z → z.RisesWithinDay ∧ SteadyAtEnds z)
    (hbuilt : clock.Built zones) :
    clock.Moves zones now ↔
      clock.Bracketed zones now ∧ clock.InZone (fun z ↦ clock.NonePassed z now) zones := by
  cases hevery : clock.every with
  | hour =>
      rw [moves_hour_iff hevery]
      exact (and_iff_left (inZone_of_hour hevery)).symm
  | day =>
      obtain ⟨z, hz⟩ := hbuilt.known hevery
      obtain ⟨hrises, hsteady⟩ := hzones _ z hz
      rw [moves_day_iff hbuilt hevery hz hrises hsteady]
      refine and_congr_right fun _ ↦ ⟨fun hnone _ ↦ ⟨z, hz, hnone⟩, fun h ↦ ?_⟩
      obtain ⟨z', hz', hnone⟩ := h hevery
      obtain rfl := Option.some.inj (hz.symm.trans hz')
      exact hnone

end Clock

/-! ## One due row -/

namespace Schedule

section Row

variable (session : Zone) (now : Int) (nowIn nextIn : Loaded) (row : Schedule)

/-- `now - next_run_at`: two datetimes of one zone are subtracted on the wall, any others in UTC. -/
def elapsed : Int :=
  if nowIn.sameZone nextIn then session.wall now - session.wall row.nextRunAt
  else now - row.nextRunAt

/-- `now - slot`, for a slot on the wall of `next_run_at`. -/
def lateness (slot : Int) : Int :=
  if nowIn.sameZone nextIn then session.wall now - slot
  else now - (nextIn.zone session row.nextRunAt).instant slot

/-- The body of the loop of `run_due_schedules`, where psycopg has loaded `now` and `next_run_at` in
these ways; `none` is an exception. -/
def attempt (zones : ZoneInfo) : Option Decision :=
  match row.when with
  | .interval n =>
      let period := seconds n
      let zone := nextIn.zone session row.nextRunAt
      if period = 0 then none
      else
        (datetime (zone.wall row.nextRunAt +
            (row.elapsed session now nowIn nextIn).fdiv period * period)).bind fun slot ↦
          let key :=
            if row.tooLate (row.lateness session now nowIn nextIn slot) then some none
            else (datetime (zone.instant slot)).map fun utc ↦ some (slotKey row.name utc)
          key.bind fun key ↦ (datetime (slot + period)).map fun next ↦
            ⟨zone.instant slot, key, zone.instant next⟩
  | .clock c =>
      (c.atOrBeforeDated zones now).bind fun slot ↦ (c.afterDated zones slot).map fun next ↦
        ⟨slot, if row.tooLate (now - slot) then none else some (slotKey row.name slot), next⟩

end Row

end Schedule

end DurableQueue
