import DurableQueue.Reasoning.Loops
import DurableQueue.Scheduler.Clock

/-!
# Where stepping is exact

`_clock_at_or_before` and `_clock_after` start from the local date of the instant and look in one
direction.  They find the slots around the instant unless the time of a date on the other side lies
between, as it does for an hour after the clocks have gone forward over midnight.
-/

open Reasoning

namespace DurableQueue

/-! ## Aware datetimes -/

/-- The offset by which the wall time `w` is read with `fold=1`: a transition counts as passed from
the earlier of the two wall times that it joins. -/
def foldedFrom : Int → List (Int × Int) → Int → Int
  | o, [], _ => o
  | o, (start, o') :: rest, w => if w < start + min o o' then o else foldedFrom o' rest w

/-- An aware datetime, in whatever zone psycopg or the caller has it. -/
structure Aware where
  zone : Zone
  wall : Int
  fold : Bool

namespace Aware

def utcoffset (a : Aware) : Int :=
  if a.fold then foldedFrom a.zone.base a.zone.transitions a.wall else a.zone.read a.wall

/-- `astimezone(timezone.utc)`, and what aware datetimes of different zones are compared by. -/
def instant (a : Aware) : Int := a.wall - a.utcoffset

end Aware

namespace Clock

/-! ## Building a clock -/

/-- `daily(at, time_zone)`, once `at` is parsed; `none` is a zone that the host does not know. -/
def daily (zones : ZoneInfo) (atTime : Time) (timeZone : String) : Option Clock :=
  (zones timeZone).map fun _ ↦ ⟨.day, atTime, timeZone⟩

/-- `hourly(minute)`; `none` is the ValueError `minute must be 0-59`. -/
def hourly (minute : Int) : Option Clock :=
  if h : 0 ≤ minute ∧ minute < 60 then
    some ⟨.hour, ⟨minute * 60000000, by unfold dayLength; omega⟩, "UTC"⟩
  else none

def Built (zones : ZoneInfo) (clock : Clock) : Prop :=
  (∃ atTime timeZone, daily zones atTime timeZone = some clock) ∨
    ∃ minute, hourly minute = some clock

/-- The two functions return the slots around the instant. -/
structure Exact (zones : ZoneInfo) (clock : Clock) (instant : Int) : Prop where
  before : ∃ x, clock.atOrBefore zones instant = some x ∧
    IsGreatest { y ∈ clock.slots zones | y ≤ instant } x
  after : ∃ x, clock.after zones instant = some x ∧
    IsLeast { y ∈ clock.slots zones | instant < y } x

/-- `day` is the last date up to the instant's own whose slot is past. -/
structure LastPast (clock : Clock) (z : Zone) (instant day : Int) : Prop where
  date : day ≤ z.date instant
  past : clock.on z day ≤ instant
  rest : ∀ next, day < next → next ≤ z.date instant → instant < clock.on z next

/-- `day` is the first date from the instant's own on whose slot is still to come. -/
structure FirstComing (clock : Clock) (z : Zone) (instant day : Int) : Prop where
  date : z.date instant ≤ day
  coming : instant < clock.on z day
  rest : ∀ prev, z.date instant ≤ prev → prev < day → clock.on z prev ≤ instant

/-- A later date's slot is past only if that of the instant's own date is and comes no earlier, and
the day before the last date whose slot is past has none later that is past too. -/
structure PastInOrder (clock : Clock) (z : Zone) (instant : Int) : Prop where
  later : ∀ day, z.date instant < day → clock.on z day ≤ instant →
    clock.on z (z.date instant) ≤ instant ∧ clock.on z day ≤ clock.on z (z.date instant)
  last : ∀ day, clock.LastPast z instant day → clock.on z (day - 1) ≤ instant →
    clock.on z (day - 1) ≤ clock.on z day

/-- The same of earlier dates and of slots that are still to come. -/
structure ComingInOrder (clock : Clock) (z : Zone) (instant : Int) : Prop where
  earlier : ∀ day, day < z.date instant → instant < clock.on z day →
    instant < clock.on z (z.date instant) ∧ clock.on z (z.date instant) ≤ clock.on z day
  first : ∀ day, clock.FirstComing z instant day → instant < clock.on z (day + 1) →
    clock.on z day ≤ clock.on z (day + 1)

/-- Around the instant, the slots come in the order of their dates. -/
def Aligned (zones : ZoneInfo) (clock : Clock) (instant : Int) : Prop :=
  clock.InZone (fun z ↦ clock.PastInOrder z instant ∧ clock.ComingInOrder z instant) zones

variable {zones : ZoneInfo} {clock : Clock} {z : Zone} {instant : Int}

theorem Built.known (h : clock.Built zones) (hevery : clock.every = .day) :
    ∃ z, zones clock.timeZone = some z := by
  rcases h with ⟨atTime, timeZone, h⟩ | ⟨minute, h⟩
  · obtain ⟨z, hz, rfl⟩ := Option.map_eq_some_iff.mp h
    exact ⟨z, hz⟩
  · unfold hourly at h
    split at h
    · cases h
      cases hevery
    · cases h

/-! ## The hour -/

theorem inZone_of_hour {P : Zone → Prop} (hevery : clock.every = .hour) : clock.InZone P zones := by
  intro hday
  rw [hevery] at hday
  cases hday

theorem exact_hour (hevery : clock.every = .hour) (zones : ZoneInfo) (instant : Int) :
    clock.Exact zones instant := by
  refine ⟨atOrBefore_isGreatest (inZone_of_hour hevery) instant, ?_⟩
  obtain ⟨x, hx, ⟨a, ha⟩, hle, hlt⟩ := atOrBefore_hour hevery zones instant
  refine ⟨x + hourLength, ?_, ⟨(mem_slots_hour hevery).mpr ⟨a + 1, by rw [ha]; ring⟩, hlt⟩, ?_⟩
  · unfold after
    rw [hevery]
    simp only [hx, Option.map_some]
  · rintro y ⟨hy, hylt⟩
    obtain ⟨b, hb⟩ := (mem_slots_hour hevery).mp hy
    exact eq_of_hour ha hb (by omega)

/-! ## The day -/

-- Offsets are under a day, so slots two dates apart are in order on every zone.
theorem on_lt_on (clock : Clock) (z : Zone) {day day' : Int} (h : day + 2 ≤ day') :
    clock.on z day < clock.on z day' := by
  have hread := z.read_bounded (day * dayLength + clock.atTime.val)
  have hread' := z.read_bounded (day' * dayLength + clock.atTime.val)
  unfold on Zone.instant
  unfold dayLength at *
  omega

theorem atOrBefore_last (hevery : clock.every = .day) (hz : zones clock.timeZone = some z)
    (instant : Int) :
    ∃ day, clock.atOrBefore zones instant = some (clock.on z day) ∧
      clock.LastPast z instant day := by
  obtain ⟨k, hfound, hle, hstepped⟩ := atOrBefore_day hevery hz instant
  refine ⟨_, hfound, by omega, hle, fun next hlt hnext ↦ ?_⟩
  have hlate := hstepped (z.date instant - next).toNat (by omega)
  rwa [show z.date instant - (z.date instant - next).toNat = next by omega] at hlate

theorem after_first (hevery : clock.every = .day) (hz : zones clock.timeZone = some z)
    (instant : Int) :
    ∃ day, clock.after zones instant = some (clock.on z day) ∧
      clock.FirstComing z instant day := by
  obtain ⟨k, hfound, hlt, hpassed⟩ := after_day hevery hz instant
  refine ⟨_, hfound, by omega, hlt, fun prev hprev hlt ↦ ?_⟩
  have hpast := hpassed (prev - z.date instant).toNat (by omega)
  rwa [show z.date instant + (prev - z.date instant).toNat = prev by omega] at hpast

theorem LastPast.eq {day day' : Int} (h : clock.LastPast z instant day)
    (h' : clock.LastPast z instant day') : day = day' := by
  have hpast := h.past
  have hpast' := h'.past
  rcases lt_trichotomy day day' with hlt | heq | hgt
  · have hnext := h.rest _ hlt h'.date
    omega
  · exact heq
  · have hnext := h'.rest _ hgt h.date
    omega

theorem FirstComing.eq {day day' : Int} (h : clock.FirstComing z instant day)
    (h' : clock.FirstComing z instant day') : day = day' := by
  have hcoming := h.coming
  have hcoming' := h'.coming
  rcases lt_trichotomy day day' with hlt | heq | hgt
  · have hprev := h'.rest _ h.date hlt
    omega
  · exact heq
  · have hprev := h.rest _ h'.date hgt
    omega

theorem before_iff (hevery : clock.every = .day) (hz : zones clock.timeZone = some z) :
    (∃ x, clock.atOrBefore zones instant = some x ∧
      IsGreatest { y ∈ clock.slots zones | y ≤ instant } x) ↔ clock.PastInOrder z instant := by
  obtain ⟨last, hfound, hlast⟩ := atOrBefore_last hevery hz instant
  have hmem (day : Int) : clock.on z day ∈ clock.slots zones :=
    (mem_slots_day hevery hz).mpr ⟨day, rfl⟩
  constructor
  · rintro ⟨x, hx, -, hgreatest⟩
    obtain rfl := Option.some.inj (hfound.symm.trans hx)
    refine ⟨fun day hday hpast ↦ ?_, fun day hday hback ↦ ?_⟩
    · have hbound := hgreatest ⟨hmem day, hpast⟩
      -- two dates on from the one found, the slot would be later
      obtain rfl : last = z.date instant := by
        by_contra hne
        have hdate := hlast.date
        have hapart := on_lt_on clock z (show last + 2 ≤ day by omega)
        omega
      exact ⟨hlast.past, hbound⟩
    · obtain rfl := hday.eq hlast
      exact hgreatest ⟨hmem _, hback⟩
  · intro h
    refine ⟨_, hfound, ⟨hmem _, hlast.past⟩, ?_⟩
    rintro y ⟨hy, hyle⟩
    obtain ⟨day, rfl⟩ := (mem_slots_day hevery hz).mp hy
    rcases le_or_gt day (z.date instant) with hday | hlater
    · have hle : day ≤ last := by
        by_contra hlt
        have hnext := hlast.rest day (by omega) hday
        omega
      -- the one found, the day before, or further back
      obtain rfl | rfl | hfar : day = last ∨ day = last - 1 ∨ day + 2 ≤ last := by omega
      · exact le_rfl
      · exact h.last _ hlast hyle
      · exact (on_lt_on clock z hfar).le
    · obtain ⟨hown, hbound⟩ := h.later day hlater hyle
      obtain rfl : last = z.date instant := by
        by_contra hne
        have hdate := hlast.date
        have hnext := hlast.rest (z.date instant) (by omega) le_rfl
        omega
      exact hbound

theorem after_iff (hevery : clock.every = .day) (hz : zones clock.timeZone = some z) :
    (∃ x, clock.after zones instant = some x ∧
      IsLeast { y ∈ clock.slots zones | instant < y } x) ↔ clock.ComingInOrder z instant := by
  obtain ⟨first, hfound, hfirst⟩ := after_first hevery hz instant
  have hmem (day : Int) : clock.on z day ∈ clock.slots zones :=
    (mem_slots_day hevery hz).mpr ⟨day, rfl⟩
  constructor
  · rintro ⟨x, hx, -, hleast⟩
    obtain rfl := Option.some.inj (hfound.symm.trans hx)
    refine ⟨fun day hday hcoming ↦ ?_, fun day hday hahead ↦ ?_⟩
    · have hbound := hleast ⟨hmem day, hcoming⟩
      obtain rfl : first = z.date instant := by
        by_contra hne
        have hdate := hfirst.date
        have hapart := on_lt_on clock z (show day + 2 ≤ first by omega)
        omega
      exact ⟨hfirst.coming, hbound⟩
    · obtain rfl := hday.eq hfirst
      exact hleast ⟨hmem _, hahead⟩
  · intro h
    refine ⟨_, hfound, ⟨hmem _, hfirst.coming⟩, ?_⟩
    rintro y ⟨hy, hylt⟩
    obtain ⟨day, rfl⟩ := (mem_slots_day hevery hz).mp hy
    rcases le_or_gt (z.date instant) day with hday | hearlier
    · have hle : first ≤ day := by
        by_contra hlt
        have hprev := hfirst.rest day hday (by omega)
        omega
      obtain rfl | rfl | hfar : day = first ∨ day = first + 1 ∨ first + 2 ≤ day := by omega
      · exact le_rfl
      · exact h.first _ hfirst hylt
      · exact (on_lt_on clock z hfar).le
    · obtain ⟨hown, hbound⟩ := h.earlier day hearlier hylt
      obtain rfl : first = z.date instant := by
        by_contra hne
        have hdate := hfirst.date
        have hprev := hfirst.rest (z.date instant) le_rfl (by omega)
        omega
      exact hbound

/-- On a regular zone, only the slot of the day before can be out of line. -/
theorem aligned_of_regular (hz : zones clock.timeZone = some z) (hregular : Regular z)
    (hyesterday : clock.on z (z.date instant - 1) ≤ instant ∨
      clock.on z (z.date instant - 1) = clock.on z (z.date instant)) :
    clock.Aligned zones instant := by
  obtain ⟨hdate, hrises⟩ := hregular
  refine fun _ ↦ ⟨z, hz, ⟨fun day hday hpast ↦ ?_, fun day _ _ ↦ ?_⟩,
    ⟨fun day hday hcoming ↦ ?_, fun day _ _ ↦ ?_⟩⟩
  · have hreached := le_date_on clock hdate day
    have hnow := hdate _ _ hpast
    omega
  · exact on_mono clock hrises (by omega)
  · -- the slot is still to come, so its date is the day before at the earliest
    have hslot := date_on_le clock hrises day
    have hnow := hdate _ _ hcoming.le
    obtain rfl : day = z.date instant - 1 := by omega
    have hsame := hyesterday.resolve_left (by omega)
    exact ⟨hsame ▸ hcoming, hsame.ge⟩
  · exact on_mono clock hrises (by omega)

/-- Both functions are right exactly at the instants around which the slots are in order. -/
theorem steps_exact_iff (hbuilt : clock.Built zones) (a : Aware) :
    clock.Exact zones a.instant ↔ clock.Aligned zones a.instant := by
  cases hevery : clock.every with
  | hour =>
      exact ⟨fun _ ↦ inZone_of_hour hevery, fun _ ↦ exact_hour hevery zones a.instant⟩
  | day =>
      obtain ⟨z, hz⟩ := hbuilt.known hevery
      constructor
      · rintro ⟨hbefore, hafter⟩ -
        exact ⟨z, hz, (before_iff hevery hz).mp hbefore, (after_iff hevery hz).mp hafter⟩
      · intro h
        obtain ⟨z', hz', hpast, hcoming⟩ := h hevery
        exact ⟨(before_iff hevery hz').mpr hpast, (after_iff hevery hz').mpr hcoming⟩

/-- America/Nuuk in 2026: at -2 h, from 29 March 01:00 UTC at -1 h, from 25 October at -2 h again.
In March 23:00 is followed by midnight. -/
def nuuk : Zone where
  base := -7200000000
  transitions := [(1774746000000000, -3600000000), (1792890000000000, -7200000000)]
  sorted := by decide
  bounded := by decide

/-- Daily at 23:30 there. -/
def lateEvening : Clock := ⟨.day, ⟨84600000000, by decide⟩, "America/Nuuk"⟩

theorem offset_nuuk (t : Int) : nuuk.offset t =
    if t < 1774746000000000 then -7200000000
    else if t < 1792890000000000 then -3600000000 else -7200000000 := rfl

theorem regular_nuuk : Regular nuuk := by
  constructor
  · intro t t' h
    unfold Zone.date Zone.wall dayLength
    rw [offset_nuuk, offset_nuuk]
    split_ifs <;> omega
  · intro t t' h h'
    unfold dayLength
    rw [offset_nuuk, offset_nuuk]
    split_ifs <;> omega

theorem offset_utc : -dayLength < 0 ∧ 0 < dayLength := by
  unfold dayLength
  omega

/-- An instant, as UTC has it. -/
def inUtc (t : Int) : Aware := ⟨.fixed 0 offset_utc, t, false⟩

theorem built_lateEvening : lateEvening.Built fun _ ↦ some nuuk :=
  Or.inl ⟨lateEvening.atTime, "America/Nuuk", rfl⟩

/-- On 29 March at 01:40 UTC the slot of the night is past. -/
theorem steps_exact_nuuk : lateEvening.Exact (fun _ ↦ some nuuk) 1774748400000000 := by
  exact (steps_exact_iff built_lateEvening (inUtc 1774748400000000)).mpr
    (aligned_of_regular rfl regular_nuuk (Or.inl (by decide)))

/-- At 01:10 UTC it is the 29th there, and the slot of the 28th, which the clocks have skipped, is
still to come, at 01:30 UTC: `_clock_after` passes it over. -/
theorem steps_inexact_nuuk :
    ¬ ∀ (zones : ZoneInfo) (clock : Clock) (a : Aware),
      clock.Built zones → clock.Exact zones a.instant := by
  intro h
  obtain ⟨x, hx, hleast⟩ :=
    (h (fun _ ↦ some nuuk) lateEvening (inUtc 1774746600000000) built_lateEvening).after
  have hreturned : lateEvening.after (fun _ ↦ some nuuk) (inUtc 1774746600000000).instant =
      some 1774830600000000 := by decide
  obtain rfl := Option.some.inj (hx.symm.trans hreturned)
  have hle : (1774830600000000 : Int) ≤ 1774747800000000 :=
    hleast.2 ⟨⟨nuuk, 20540, rfl, by decide⟩, by decide⟩
  exact absurd hle (by decide)

/-! ## Turns -/

-- With enough fuel, `stepDays` is the loop.
theorem stepDays_of_while {ahead : Int → Bool} {step : Int} {day stop : Int} {fuel n : Nat}
    (h : While ahead (· + step) day n stop) (hfuel : n < fuel) :
    stepDays ahead step fuel day = some stop := by
  induction h generalizing fuel with
  | done hday =>
      obtain ⟨fuel, rfl⟩ : ∃ m, fuel = m + 1 := ⟨fuel - 1, by omega⟩
      rw [stepDays, if_neg (by simp [hday])]
  | turn hday _ ih =>
      obtain ⟨fuel, rfl⟩ : ∃ m, fuel = m + 1 := ⟨fuel - 1, by omega⟩
      rw [stepDays, if_pos hday]
      exact ih (by omega)

theorem stopped_back (clock : Clock) (z : Zone) (instant : Int) :
    decide (instant < clock.on z ((· + (-1))^[3] (z.date instant))) = false := by
  refine decide_eq_false ?_
  rw [show (· + (-1))^[3] (z.date instant) = z.date instant - 3 by
    simp only [Function.iterate_succ, Function.iterate_zero, Function.comp_apply, id_eq]; omega]
  exact not_lt.mpr (on_three_back clock z instant)

theorem stopped_forward (clock : Clock) (z : Zone) (instant : Int) :
    decide (clock.on z ((· + 1)^[3] (z.date instant)) ≤ instant) = false := by
  refine decide_eq_false ?_
  rw [show (· + 1)^[3] (z.date instant) = z.date instant + 3 by
    simp only [Function.iterate_succ, Function.iterate_zero, Function.comp_apply, id_eq]; omega]
  exact not_le.mpr (lt_on_three_forward clock z instant)

/-- `while _on(clock, day) > instant: day -= timedelta(days=1)`, from the instant's date. -/
def StepsBack (clock : Clock) (z : Zone) (instant : Int) : Nat → Int → Prop :=
  While (fun day ↦ instant < clock.on z day) (· + (-1)) (z.date instant)

/-- `while _on(clock, day) <= instant: day += timedelta(days=1)`, from the instant's date. -/
def StepsForward (clock : Clock) (z : Zone) (instant : Int) : Nat → Int → Prop :=
  While (fun day ↦ clock.on z day ≤ instant) (· + 1) (z.date instant)

/-- Both loops end, never after more than three turns, and the functions return the slots of the
days on which they end. -/
theorem turns_le_three (hevery : clock.every = .day) (hz : zones clock.timeZone = some z)
    (instant : Int) :
    ((∃ n day, clock.StepsBack z instant n day ∧
        clock.atOrBefore zones instant = some (clock.on z day)) ∧
      ∀ n day, clock.StepsBack z instant n day → n ≤ 3) ∧
    (∃ n day, clock.StepsForward z instant n day ∧
        clock.after zones instant = some (clock.on z day)) ∧
      ∀ n day, clock.StepsForward z instant n day → n ≤ 3 := by
  have hback := stopped_back clock z instant
  have hforward := stopped_forward clock z instant
  refine ⟨⟨?_, fun n day h ↦ While.turns_le h hback⟩, ?_, fun n day h ↦ While.turns_le h hforward⟩
  · obtain ⟨n, hn, day, hloop⟩ : ∃ n ≤ 3, ∃ day, clock.StepsBack z instant n day :=
      While.exists_of_stop hback
    refine ⟨n, day, hloop, ?_⟩
    unfold atOrBefore
    rw [hevery]
    simp only [hz, Option.bind_some, loopFuel, stepDays_of_while hloop (Nat.lt_succ_of_le hn),
      Option.map_some]
  · obtain ⟨n, hn, day, hloop⟩ : ∃ n ≤ 3, ∃ day, clock.StepsForward z instant n day :=
      While.exists_of_stop hforward
    refine ⟨n, day, hloop, ?_⟩
    unfold after
    rw [hevery]
    simp only [hz, Option.bind_some, loopFuel, stepDays_of_while hloop (Nat.lt_succ_of_le hn),
      Option.map_some]

/-- At the instant at which `_clock_after` passes a slot over. -/
theorem turns_le_three_nuuk :
    ((∃ n day, lateEvening.StepsBack nuuk 1774746600000000 n day ∧
        lateEvening.atOrBefore (fun _ ↦ some nuuk) 1774746600000000 =
          some (lateEvening.on nuuk day)) ∧
      ∀ n day, lateEvening.StepsBack nuuk 1774746600000000 n day → n ≤ 3) ∧
    (∃ n day, lateEvening.StepsForward nuuk 1774746600000000 n day ∧
        lateEvening.after (fun _ ↦ some nuuk) 1774746600000000 =
          some (lateEvening.on nuuk day)) ∧
      ∀ n day, lateEvening.StepsForward nuuk 1774746600000000 n day → n ≤ 3 :=
  turns_le_three rfl rfl 1774746600000000

end Clock

end DurableQueue
