import Mathlib.Data.Int.DivMod
import Mathlib.Order.Lattice
import Mathlib.Tactic.Common

/-!
# Wall clocks

A time zone as a table of transitions: which instant a clock on the wall shows what time at, and at
which instant it is taken to show a given time.  A clock that is set forward skips times and one
that is set back shows times twice, so reading is neither injective nor monotone by itself.
Instants, wall times and offsets are in microseconds.
-/

namespace Reasoning

def dayLength : Int := 86400000000

/-- An offset from the beginning of time, and the offsets after each transition. -/
structure Zone where
  base : Int
  transitions : List (Int × Int)
  sorted : (transitions.map Prod.fst).Pairwise (· < ·)
  bounded : ∀ o ∈ base :: transitions.map Prod.snd, -dayLength < o ∧ o < dayLength

/-- The offset in force at `t`. -/
def offsetFrom : Int → List (Int × Int) → Int → Int
  | o, [], _ => o
  | o, (start, o') :: rest, t => if t < start then o else offsetFrom o' rest t

/-- The offset by which the wall time `w` is read.  A transition counts as passed from the later of
the two wall times that it joins: a skipped time is read by the offset before, and a time that is
shown twice is the first of the two. -/
def readFrom : Int → List (Int × Int) → Int → Int
  | o, [], _ => o
  | o, (start, o') :: rest, w => if w < start + max o o' then o else readFrom o' rest w

namespace Zone

def fixed (o : Int) (h : -dayLength < o ∧ o < dayLength) : Zone where
  base := o
  transitions := []
  sorted := List.Pairwise.nil
  bounded := by simpa using h

def offset (z : Zone) (t : Int) : Int := offsetFrom z.base z.transitions t

def read (z : Zone) (w : Int) : Int := readFrom z.base z.transitions w

/-- What the clock shows at `t`. -/
def wall (z : Zone) (t : Int) : Int := t + z.offset t

/-- When the clock shows `w`. -/
def instant (z : Zone) (w : Int) : Int := w - z.read w

/-- The day on the calendar next to the clock, counted from the epoch. -/
def date (z : Zone) (t : Int) : Int := z.wall t / dayLength

/-- The date never goes backwards. -/
def DateMonotone (z : Zone) : Prop := ∀ t t', t ≤ t' → z.date t ≤ z.date t'

/-- No transition skips more than a day. -/
def GapsWithinDay (z : Zone) : Prop := ∀ t, z.offset t - z.offset (t - 1) ≤ dayLength

/-- From `a` to `b` the clock is at the offset `o`. -/
def SteadyAt (z : Zone) (a b o : Int) : Prop := ∀ t, a ≤ t → t ≤ b → z.offset t = o

/-- Within a day the clock is set forward by a day at most, all transitions taken together. -/
def RisesWithinDay (z : Zone) : Prop :=
  ∀ t t', t ≤ t' → t' ≤ t + dayLength → z.offset t' - z.offset t ≤ dayLength

end Zone

/-! ## Along the table -/

section Table

variable {o s t w w' : Int} {l : List (Int × Int)}

theorem offsetFrom_mem : offsetFrom o l t ∈ o :: l.map Prod.snd := by
  induction l generalizing o with
  | nil => exact List.mem_singleton_self o
  | cons x rest ih =>
      rw [offsetFrom]
      split
      · exact List.mem_cons_self
      · exact List.mem_cons_of_mem o ih

theorem readFrom_mem : readFrom o l w ∈ o :: l.map Prod.snd := by
  induction l generalizing o with
  | nil => exact List.mem_singleton_self o
  | cons x rest ih =>
      rw [readFrom]
      split
      · exact List.mem_cons_self
      · exact List.mem_cons_of_mem o ih

theorem offsetFrom_congr {t' : Int} (h : ∀ x ∈ l, t < x.1 ↔ t' < x.1) :
    offsetFrom o l t = offsetFrom o l t' := by
  induction l generalizing o with
  | nil => rfl
  | cons x rest ih =>
      have hx := h x List.mem_cons_self
      rw [offsetFrom, offsetFrom]
      by_cases hlt : t < x.1
      · rw [if_pos hlt, if_pos (hx.mp hlt)]
      · rw [if_neg hlt, if_neg (mt hx.mpr hlt)]
        exact ih fun y hy ↦ h y (List.mem_cons_of_mem x hy)

/-- `s` is an instant from which on `o` is in force, until the first transition of `l`. -/
def After (s : Int) (l : List (Int × Int)) : Prop := (s :: l.map Prod.fst).Pairwise (· < ·)

theorem After.tail {x : Int × Int} (h : After s (x :: l)) : s < x.1 ∧ After x.1 l := by
  obtain ⟨hlt, hl⟩ := List.pairwise_cons.mp h
  exact ⟨hlt x.1 List.mem_cons_self, hl⟩

theorem After.offsetFrom_self (h : After s l) : offsetFrom o l s = o := by
  cases l with
  | nil => rfl
  | cons x rest =>
      rw [offsetFrom, if_pos h.tail.1]

-- The offset a wall time is read by is in force at some instant up to the one it is read as.
theorem After.exists_offset_eq_read (h : After s l) (hw : s ≤ w - o) :
    ∃ t, s ≤ t ∧ t ≤ w - readFrom o l w ∧ offsetFrom o l t = readFrom o l w := by
  induction l generalizing s o with
  | nil => exact ⟨s, Int.le_refl s, hw, rfl⟩
  | cons x rest ih =>
      have hx := h.tail
      rw [readFrom]
      by_cases hpass : w < x.1 + max o x.2
      · rw [if_pos hpass]
        exact ⟨s, Int.le_refl s, hw, h.offsetFrom_self⟩
      · rw [if_neg hpass]
        obtain ⟨t, ht, htw, hoff⟩ := ih hx.2 (by omega : x.1 ≤ w - x.2)
        refine ⟨t, by omega, htw, ?_⟩
        rw [offsetFrom, if_neg (by omega), hoff]

/-- A wall time is read by the offset at which it is first shown, or by the one before the
transition that skips it. -/
theorem After.shown (h : After s l) :
    (offsetFrom o l (w - readFrom o l w) = readFrom o l w ∧
      ∀ u < w - readFrom o l w, u + offsetFrom o l u < w) ∨
    ∃ t, s < t ∧ t ≤ w - readFrom o l w ∧ offsetFrom o l (t - 1) = readFrom o l w ∧
      (∀ u < t, u + offsetFrom o l u < w) ∧ w < t + offsetFrom o l t := by
  induction l generalizing s o with
  | nil =>
      refine Or.inl ⟨rfl, fun u hu ↦ ?_⟩
      change u < w - o at hu
      change u + o < w
      omega
  | cons x rest ih =>
      have hx := h.tail
      have hstart : offsetFrom o (x :: rest) x.1 = x.2 := by
        rw [offsetFrom, if_neg (Int.lt_irrefl _), hx.2.offsetFrom_self]
      by_cases hpass : w < x.1 + max o x.2
      · rw [readFrom, if_pos hpass]
        by_cases hbefore : w - o < x.1
        · refine Or.inl ⟨by rw [offsetFrom, if_pos hbefore], fun u hu ↦ ?_⟩
          rw [offsetFrom, if_pos (by omega)]
          omega
        · -- set forward: the time read is past the transition and not shown after it
          refine Or.inr ⟨x.1, hx.1, by omega, ?_, fun u hu ↦ ?_, by omega⟩
          · rw [offsetFrom, if_pos (by omega)]
          · rw [offsetFrom, if_pos hu]
            omega
      · rw [readFrom, if_neg hpass]
        -- before the transition everything shown is earlier
        have hearlier {u : Int} (hu : u < x.1) : u + offsetFrom o (x :: rest) u < w := by
          rw [offsetFrom, if_pos hu]
          omega
        have hlater {u : Int} (hu : ¬ u < x.1) :
            offsetFrom o (x :: rest) u = offsetFrom x.2 rest u := by
          rw [offsetFrom, if_neg hu]
        obtain ⟨t, ht, htw, -⟩ := hx.2.exists_offset_eq_read (by omega : x.1 ≤ w - x.2)
        rcases ih (o := x.2) hx.2 with ⟨hexact, hbefore⟩ | ⟨t', ht', hle, hoff, hbefore, hskip⟩
        · refine Or.inl ⟨by rw [hlater (by omega), hexact], fun u hu ↦ ?_⟩
          by_cases hux : u < x.1
          · exact hearlier hux
          · rw [hlater hux]
            exact hbefore u hu
        · refine Or.inr ⟨t', by omega, hle, by rw [hlater (by omega), hoff], fun u hu ↦ ?_, ?_⟩
          · by_cases hux : u < x.1
            · exact hearlier hux
            · rw [hlater hux]
              exact hbefore u hu
          · rw [hlater (by omega)]
            exact hskip

/-- A wall time is read exactly, unless a transition skips it. -/
theorem After.read_cases (h : After s l) :
    offsetFrom o l (w - readFrom o l w) = readFrom o l w ∨
      ∃ t, s < t ∧ t ≤ w - readFrom o l w ∧ offsetFrom o l (t - 1) = readFrom o l w ∧
        w < t + offsetFrom o l t := by
  rcases h.shown (o := o) (w := w) with ⟨hexact, -⟩ | ⟨t, ht, hle, hoff, -, hskip⟩
  · exact Or.inl hexact
  · exact Or.inr ⟨t, ht, hle, hoff, hskip⟩

/-- Reading is monotone, except that a time that is read as an instant after a transition by the
offset before it may be overtaken by one that is read by an offset after it. -/
theorem After.instant_le_cases (h : After s l) (hle : w ≤ w') :
    w - readFrom o l w ≤ w' - readFrom o l w' ∨
      ∃ t t', s < t ∧ t ≤ t' ∧ t' ≤ w' - readFrom o l w' ∧
        offsetFrom o l (t - 1) = readFrom o l w ∧ offsetFrom o l t' = readFrom o l w' ∧
        w < t + offsetFrom o l t := by
  induction l generalizing s o with
  | nil =>
      left
      change w - o ≤ w' - o
      omega
  | cons x rest ih =>
      have hx := h.tail
      by_cases hpass' : w' < x.1 + max o x.2
      · left
        rw [readFrom, readFrom, if_pos hpass', if_pos (by omega)]
        omega
      · obtain ⟨t', ht', hle', hoff'⟩ := hx.2.exists_offset_eq_read (by omega : x.1 ≤ w' - x.2)
        by_cases hpass : w < x.1 + max o x.2
        · rw [readFrom, readFrom, if_neg hpass', if_pos hpass]
          by_cases hbefore : w - o < x.1
          · left
            omega
          · right
            refine ⟨x.1, t', hx.1, ht', hle', ?_, ?_, ?_⟩
            · rw [offsetFrom, if_pos (by omega)]
            · rw [offsetFrom, if_neg (by omega), hoff']
            · rw [offsetFrom, if_neg (Int.lt_irrefl _), hx.2.offsetFrom_self]
              omega
        · rw [readFrom, readFrom, if_neg hpass', if_neg hpass]
          rcases ih (o := x.2) hx.2 with hle | ⟨t, u, ht, htu, hu, hread, hread', hskip⟩
          · exact Or.inl hle
          · right
            refine ⟨t, u, by omega, htu, hu, ?_, ?_, ?_⟩
            · rw [offsetFrom, if_neg (by omega), hread]
            · rw [offsetFrom, if_neg (by omega), hread']
            · rw [offsetFrom, if_neg (by omega)]
              exact hskip

end Table

/-! ## Clocks -/

namespace Zone

variable {z : Zone} {t w w' : Int}

theorem offset_bounded (z : Zone) (t : Int) : -dayLength < z.offset t ∧ z.offset t < dayLength :=
  z.bounded _ offsetFrom_mem

theorem read_bounded (z : Zone) (w : Int) : -dayLength < z.read w ∧ z.read w < dayLength :=
  z.bounded _ readFrom_mem

@[simp] theorem offset_fixed {o : Int} (h) (t : Int) : (fixed o h).offset t = o := rfl

-- Some instant before the first transition.
theorem exists_after (z : Zone) : ∃ s, After s z.transitions := by
  cases hl : z.transitions with
  | nil => exact ⟨0, List.pairwise_singleton _ _⟩
  | cons x rest =>
      have hsorted := z.sorted
      rw [hl, List.map_cons] at hsorted
      refine ⟨x.1 - 1, List.pairwise_cons.mpr ⟨fun t ht ↦ ?_, hsorted⟩⟩
      rcases List.mem_cons.mp ht with heq | hlater
      · omega
      · have := (List.pairwise_cons.mp hsorted).1 t hlater
        omega

/-- `t` is the first instant at which the clock shows `w` or a later time. -/
structure Reaches (z : Zone) (w t : Int) : Prop where
  before : ∀ u < t, z.wall u < w
  reached : w ≤ z.wall t

/-- The clock is at the offset `o` when it first shows `w`, or when it is set forward over `w`. -/
def ShownBy (z : Zone) (w o : Int) : Prop :=
  ∃ t, z.Reaches w t ∧ (w = z.wall t ∧ z.offset t = o ∨ w < z.wall t ∧ z.offset (t - 1) = o)

/-- By `now` the clock has come to `w`; and if it was set forward over `w`, as much time has passed
since as `w` was ahead. -/
def Passed (z : Zone) (w now : Int) : Prop :=
  ∃ t ≤ now, z.Reaches w t ∧ (w < z.wall t → w ≤ now + z.offset (t - 1))

theorem Reaches.eq {t' : Int} (h : z.Reaches w t) (h' : z.Reaches w t') : t = t' := by
  have hreached := h.reached
  have hreached' := h'.reached
  rcases lt_trichotomy t t' with hlt | heq | hgt
  · have hearlier := h'.before t hlt
    omega
  · exact heq
  · have hearlier := h.before t' hgt
    omega

theorem shownBy_read (z : Zone) (w : Int) : z.ShownBy w (z.read w) := by
  obtain ⟨s, hs⟩ := z.exists_after
  rcases hs.shown (o := z.base) (w := w) with ⟨hexact, hbefore⟩ | ⟨t, -, -, hoff, hbefore, hskip⟩
  · have hexact : z.offset (w - z.read w) = z.read w := hexact
    have hwall : w = z.wall (w - z.read w) := by
      unfold wall
      omega
    exact ⟨w - z.read w, ⟨hbefore, hwall.le⟩, Or.inl ⟨hwall, hexact⟩⟩
  · exact ⟨t, ⟨hbefore, hskip.le⟩, Or.inr ⟨hskip, hoff⟩⟩

/-- A wall time is read by the offset at which the clock first shows it. -/
theorem read_eq_iff {o : Int} : z.read w = o ↔ z.ShownBy w o := by
  constructor
  · rintro rfl
    exact z.shownBy_read w
  · rintro ⟨t, ht, hshown⟩
    obtain ⟨t', ht', hread⟩ := z.shownBy_read w
    obtain rfl := ht.eq ht'
    rcases hshown with ⟨hexact, rfl⟩ | ⟨hskip, rfl⟩ <;>
      rcases hread with ⟨hexact', hread⟩ | ⟨hskip', hread⟩ <;> omega

/-- It is read as an instant that is past once the clock has passed it. -/
theorem instant_le_iff {now : Int} : z.instant w ≤ now ↔ z.Passed w now := by
  obtain ⟨t, ht, hread⟩ := z.shownBy_read w
  unfold instant
  constructor
  · intro hle
    have hlast := ht.before (t - 1) (by omega)
    refine ⟨t, ?_, ht, fun hskip ↦ ?_⟩ <;> unfold wall at * <;> omega
  · rintro ⟨t', hle, ht', hcaught⟩
    obtain rfl := ht.eq ht'
    unfold wall at *
    omega

theorem exists_steadyAt {a b : Int} (h : ∀ x ∈ z.transitions, x.1 ≤ a ∨ b < x.1) :
    ∃ o, (-dayLength < o ∧ o < dayLength) ∧ z.SteadyAt a b o := by
  refine ⟨z.offset a, z.offset_bounded a, fun t hat htb ↦ offsetFrom_congr fun x hx ↦ ?_⟩
  have hx := h x hx
  constructor <;> intro hlt <;> omega

-- What is shown two days into a steady time is read by its offset.
theorem SteadyAt.read_eq {a b o : Int} (h : z.SteadyAt a b o) (hlow : a + 2 * dayLength ≤ w - o)
    (hhigh : w - o ≤ b) : z.read w = o := by
  have hday : (0 : Int) ≤ dayLength := by decide
  have hoff := h (w - o) (by omega) hhigh
  have hbound := z.offset_bounded (w - o)
  refine read_eq_iff.mpr ⟨w - o, ⟨fun u hu ↦ ?_, ?_⟩, Or.inl ⟨?_, hoff⟩⟩
  · have hu' := z.offset_bounded u
    unfold wall
    by_cases hau : a ≤ u
    · rw [h u hau (by omega)]
      omega
    · omega
  · unfold wall
    omega
  · unfold wall
    omega

theorem wall_instant_cases (z : Zone) (w : Int) :
    z.wall (z.instant w) = w ∨
      ∃ t, t ≤ z.instant w ∧ z.offset (t - 1) = z.read w ∧ w < z.wall t := by
  obtain ⟨s, hs⟩ := z.exists_after
  rcases hs.read_cases (o := z.base) (w := w) with hexact | ⟨t, -, hle, hoff, hskip⟩
  · left
    have hexact : z.offset (z.instant w) = z.read w := hexact
    rw [wall, hexact, instant]
    omega
  · exact Or.inr ⟨t, hle, hoff, hskip⟩

-- The day of a wall time is reached by the instant it is read as.
theorem DateMonotone.le_date_instant (h : z.DateMonotone) (w : Int) :
    w / dayLength ≤ z.date (z.instant w) := by
  rcases z.wall_instant_cases w with hexact | ⟨t, hle, -, hskip⟩
  · rw [date, hexact]
  · have hday : w / dayLength ≤ z.date t := Int.ediv_le_ediv (by decide) (by omega)
    exact Int.le_trans hday (h t _ hle)

-- A skipped time is shown a day later at the latest.
theorem RisesWithinDay.wall_instant_le (h : z.RisesWithinDay) (w : Int) :
    z.wall (z.instant w) ≤ w + dayLength := by
  rcases z.wall_instant_cases w with hexact | ⟨t, hle, hoff, hskip⟩
  · have hday : (0 : Int) ≤ dayLength := by decide
    omega
  · have hat := h (t - 1) t (by omega) (by unfold dayLength; omega)
    unfold wall at hskip ⊢
    unfold instant at hle ⊢
    rw [← hoff] at hle ⊢
    have hlater := h (t - 1) (w - z.offset (t - 1)) (by omega) (by omega)
    omega

theorem RisesWithinDay.date_instant_le (h : z.RisesWithinDay) (w : Int) :
    z.date (z.instant w) ≤ w / dayLength + 1 := by
  have hwall := h.wall_instant_le w
  rw [date]
  unfold dayLength at hwall ⊢
  omega

-- Times a day apart are read in their order.
theorem RisesWithinDay.instant_le (h : z.RisesWithinDay) (hday : w + dayLength ≤ w') :
    z.instant w ≤ z.instant w' := by
  obtain ⟨s, hs⟩ := z.exists_after
  have hpos : (0 : Int) ≤ dayLength := by decide
  rcases hs.instant_le_cases (o := z.base) (show w ≤ w' by omega) with
    hle | ⟨t, t', -, htt', hle, hread, hread', hskip⟩
  · exact hle
  · have hread : z.offset (t - 1) = z.read w := hread
    have hread' : z.offset t' = z.read w' := hread'
    have hskip : w < t + z.offset t := hskip
    have hle : t' ≤ w' - z.read w' := hle
    unfold instant
    by_contra hlt
    -- the second reading is less than a day after the transition that skips the first time
    have hat := h (t - 1) t (by omega) (by unfold dayLength; omega)
    have hrise := h (t - 1) t' (by omega) (by omega)
    omega

end Zone

end Reasoning
