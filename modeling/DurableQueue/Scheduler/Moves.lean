import DurableQueue.Scheduler.Pass

/-!
# Moving schedules

`register_schedule` and `run_due_schedules` as transactions that are open side by side.  A pass
locks the due rows that are free; an upsert waits until its row is free, and reads it then.
-/

open Reasoning

namespace DurableQueue

namespace Clock

theorem mem_slots_of_after {zones : ZoneInfo} {clock : Clock} {instant x : Int}
    (h : clock.after zones instant = some x) : x ∈ clock.slots zones := by
  -- it has returned, so the host knows the zone
  have hzone : clock.InZone (fun _ ↦ True) zones := by
    intro hevery
    unfold after at h
    rw [hevery] at h
    obtain ⟨z, hz, -⟩ := Option.bind_eq_some_iff.mp h
    exact ⟨z, hz, trivial⟩
  obtain ⟨y, hy, hmem, -⟩ := after_mem hzone instant
  rw [Option.some.inj (h.symm.trans hy)]
  exact hmem

end Clock

/-- What `register_schedule` sets. -/
structure Definition where
  task : String
  args : Json
  when : When
  maxLatenessSeconds : Option Int
  deriving DecidableEq

namespace Schedule

def definition (r : Schedule) : Definition := ⟨r.task, r.args, r.when, r.maxLatenessSeconds⟩

/-- A clock schedule is due at a slot of its own clock. -/
def OnClock (zones : ZoneInfo) (r : Schedule) : Prop :=
  ∀ c, r.when = .clock c → r.nextRunAt ∈ c.slots zones

/-- What the UPDATE of a pass leaves. -/
def advanced (r : Schedule) (d : Decision) : Schedule := { r with nextRunAt := d.nextRunAt }

variable {zones : ZoneInfo} {session : Zone} {now : Int} {row excluded old : Schedule}
  {d : Decision}

theorem onClock_advanced (h : row.handle zones session now = some d) :
    (row.advanced d).OnClock zones := by
  intro c hc
  have hwhen : row.when = .clock c := hc
  obtain ⟨slot, -, hafter⟩ := Option.bind_eq_some_iff.mp h
  obtain ⟨next, hnext, rfl⟩ := Option.map_eq_some_iff.mp hafter
  unfold slotAfter at hnext
  rw [hwhen] at hnext
  obtain ⟨x, hx, rfl⟩ := Option.map_eq_some_iff.mp hnext
  exact Clock.mem_slots_of_after hx

-- A row keeps its next_run_at through a conflict only under the clock that it is a slot of.
theorem onClock_onConflict (hnew : excluded.OnClock zones) (hold : old.OnClock zones) :
    (Schedules.onConflict excluded old).OnClock zones := by
  intro c hc
  have hwhen : excluded.when = .clock c := hc
  unfold Schedules.onConflict
  by_cases hmoved : old.when.clock? ≠ excluded.when.clock?
  · rw [if_pos hmoved]
    exact hnew c hwhen
  · rw [if_neg hmoved]
    refine hold c ?_
    have hsame := not_not.mp hmoved
    rw [hwhen] at hsame
    cases hw : old.when with
    | interval n =>
        rw [hw] at hsame
        cases hsame
    | clock c' =>
        rw [hw] at hsame
        rw [Option.some.inj hsame]

end Schedule

namespace Schedules

/-- The row that `register_schedule` proposes, in a transaction that begins at `now`. -/
def excludedRow (zones : ZoneInfo) (now : Int) (name task : String) (args : Json) (when' : When)
    (firstRunAt maxLatenessSeconds : Option Int) : Option Schedule :=
  match when' with
  | .clock c =>
      if firstRunAt.isSome then none
      else (c.after zones now).map fun first ↦ ⟨name, task, args, when', maxLatenessSeconds, first⟩
  | .interval _ => some ⟨name, task, args, when', maxLatenessSeconds, firstRunAt.getD now⟩

theorem registerSchedule_eq (t : Schedules) (zones : ZoneInfo) (now : Int) (name task : String)
    (args : Json) (when' : When) (firstRunAt maxLatenessSeconds : Option Int) :
    t.registerSchedule zones now name task args when' firstRunAt maxLatenessSeconds =
      (excludedRow zones now name task args when' firstRunAt maxLatenessSeconds).map t.upsert := by
  unfold registerSchedule excludedRow
  cases when' with
  | interval n => rfl
  | clock c =>
      by_cases hfirst : firstRunAt.isSome
      · simp only [if_pos hfirst, Option.map_none]
      · simp only [if_neg hfirst, Option.map_map]
        rfl

theorem onClock_excludedRow {zones : ZoneInfo} {now : Int} {name task : String} {args : Json}
    {when' : When} {firstRunAt maxLatenessSeconds : Option Int} {r : Schedule}
    (h : excludedRow zones now name task args when' firstRunAt maxLatenessSeconds = some r) :
    r.OnClock zones := by
  intro c hc
  cases when' with
  | interval n =>
      cases h
      cases hc
  | clock c' =>
      simp only [excludedRow] at h
      split at h
      · cases h
      · obtain ⟨first, hfirst, rfl⟩ := Option.map_eq_some_iff.mp h
        cases hc
        exact Clock.mem_slots_of_after hfirst

/-- What an upsert of `excluded` writes. -/
def conflicting (t : Schedules) (excluded : Schedule) : Schedule :=
  ((t.row excluded.name).map (onConflict excluded)).getD excluded

/-- A row that has been written becomes visible. -/
def put (t : Schedules) (r : Schedule) : Schedules :=
  match h : t.row r.name with
  | none => t.append r h
  | some _ => t.update r.name (fun old ↦ { r with name := old.name }) fun _ ↦ rfl

/-- So do the advanced rows of a pass. -/
def advance (t : Schedules) (handled : List (Schedule × Decision)) : Schedules :=
  handled.foldl (fun t h ↦ t.setNextRunAt h.1.name h.2.nextRunAt) t

variable {zones : ZoneInfo} {t : Schedules} {excluded r : Schedule} {name : String}

theorem name_conflicting : (t.conflicting excluded).name = excluded.name := by
  unfold conflicting
  cases hrow : t.row excluded.name with
  | none => rfl
  | some old =>
      rw [Option.map_some, Option.getD_some, name_onConflict]
      exact row_name hrow

theorem definition_conflicting : (t.conflicting excluded).definition = excluded.definition := by
  unfold conflicting
  cases t.row excluded.name with
  | none => rfl
  | some old => rfl

theorem onClock_conflicting (hnew : excluded.OnClock zones)
    (hold : ∀ old, t.row excluded.name = some old → old.OnClock zones) :
    (t.conflicting excluded).OnClock zones := by
  unfold conflicting
  cases hrow : t.row excluded.name with
  | none => exact hnew
  | some old => exact Schedule.onClock_onConflict hnew (hold old hrow)

theorem row_put (t : Schedules) (r : Schedule) (name : String) :
    (t.put r).row name = if r.name = name then some r else t.row name := by
  unfold put
  split
  · rw [row_append]
  · rename_i old hold
    rw [row_update]
    by_cases hname : r.name = name
    · rw [if_pos hname, if_pos hname, ← hname, hold, Option.map_some, row_name hold]
    · rw [if_neg hname, if_neg hname]

-- Nothing comes between an upsert and its commit, so a registration is as good as atomic.
theorem row_put_conflicting (t : Schedules) (excluded : Schedule) (name : String) :
    (t.put (t.conflicting excluded)).row name = (t.upsert excluded).row name := by
  rw [row_put, row_upsert, name_conflicting]
  by_cases hname : excluded.name = name
  · rw [if_pos hname, if_pos hname, ← hname]
    rfl
  · rw [if_neg hname, if_neg hname]

theorem row_advance (t : Schedules) (handled : List (Schedule × Decision)) (name : String) :
    (t.advance handled).row name = t.row name ∨
      ∃ h ∈ handled, h.1.name = name ∧
        (t.advance handled).row name = (t.row name).map fun r ↦ r.advanced h.2 := by
  unfold advance
  induction handled generalizing t with
  | nil => exact Or.inl rfl
  | cons h rest ih =>
      rw [List.foldl_cons]
      have hrow := row_setNextRunAt t h.1.name name h.2.nextRunAt
      rcases ih (t.setNextRunAt h.1.name h.2.nextRunAt) with hsame | ⟨h', hmem, hname', hlast⟩
      · by_cases hname : h.1.name = name
        · rw [if_pos hname] at hrow
          exact Or.inr ⟨h, List.mem_cons_self, hname, hsame.trans hrow⟩
        · rw [if_neg hname] at hrow
          exact Or.inl (hsame.trans hrow)
      · refine Or.inr ⟨h', List.mem_cons_of_mem h hmem, hname', hlast.trans ?_⟩
        -- the last UPDATE of a row is the one that counts
        rw [hrow]
        by_cases hname : h.1.name = name
        · rw [if_pos hname, Option.map_map]
          rfl
        · rw [if_neg hname]

theorem definition_advance (t : Schedules) (handled : List (Schedule × Decision)) (name : String) :
    ((t.advance handled).row name).map Schedule.definition =
      (t.row name).map Schedule.definition := by
  rcases row_advance t handled name with hsame | ⟨h, -, -, hlast⟩
  · rw [hsame]
  · rw [hlast, Option.map_map]
    rfl

end Schedules

/-! ## Transactions -/

/-- A transaction under way: a pass, a registration that has proposed a row, or one that has
written it. -/
inductive Transaction where
  | pass (p : Pass)
  | registering (excluded : Schedule)
  | upserted (excluded written : Schedule)

/-- The schedules whose rows it has locked. -/
def Transaction.locks : Transaction → List String
  | .pass p => p.rows.map Schedule.name
  | .registering _ => []
  | .upserted excluded _ => [excluded.name]

/-- The rows that are committed, the open transactions, and what has been registered last under
each name. -/
structure Moving where
  schedules : Schedules
  transactions : Nat → Option Transaction
  registered : String → Option Definition

inductive MovingAct where
  | begin (k : Nat) (now : Int)
  | lock (k : Nat) (row : Schedule)
  | handle (k : Nat) (session : Zone)
  | register (k : Nat) (now : Int) (name task : String) (args : Json) (when' : When)
      (firstRunAt maxLatenessSeconds : Option Int)
  | upsert (k : Nat)
  | commit (k : Nat)
  | rollback (k : Nat)

namespace Moving

def start : Moving := ⟨.empty, fun _ ↦ none, fun _ ↦ none⟩

def Locked (s : Moving) (name : String) : Prop :=
  ∃ k x, s.transactions k = some x ∧ name ∈ x.locks

def set (s : Moving) (k : Nat) (x : Option Transaction) : Moving :=
  { s with transactions := Function.update s.transactions k x }

end Moving

open Moving

/-- A raised exception ends in a rollback, as the loss of a connection does. -/
inductive MovingStep (zones : ZoneInfo) : Moving → MovingAct → Moving → Prop where
  | begin {s : Moving} {k : Nat} {now : Int} (hnew : s.transactions k = none) :
      MovingStep zones s (.begin k now) (s.set k (some (.pass ⟨now, [], []⟩)))
  -- `FOR UPDATE SKIP LOCKED`
  | lock {s : Moving} {k : Nat} {p : Pass} {row : Schedule}
      (hp : s.transactions k = some (.pass p)) (hrow : s.schedules.row row.name = some row)
      (hdue : row.nextRunAt ≤ p.now) (hfree : ¬ s.Locked row.name) :
      MovingStep zones s (.lock k row) (s.set k (some (.pass { p with due := row :: p.due })))
  | handle {s : Moving} {k : Nat} {session : Zone} {p : Pass} {row : Schedule}
      {rest : List Schedule} {d : Decision} (hp : s.transactions k = some (.pass p))
      (hdue : p.due = row :: rest) (hd : row.handle zones session p.now = some d) :
      MovingStep zones s (.handle k session)
        (s.set k (some (.pass { p with due := rest, handled := p.handled ++ [(row, d)] })))
  | finish {s : Moving} {k : Nat} {p : Pass} (hp : s.transactions k = some (.pass p))
      (hdone : p.due = []) :
      MovingStep zones s (.commit k)
        { s.set k none with schedules := s.schedules.advance p.handled }
  | register {s : Moving} {k : Nat} {now : Int} {name task : String} {args : Json} {when' : When}
      {firstRunAt maxLatenessSeconds : Option Int} {excluded : Schedule}
      (hnew : s.transactions k = none)
      (hrow : Schedules.excludedRow zones now name task args when' firstRunAt maxLatenessSeconds =
        some excluded) :
      MovingStep zones s (.register k now name task args when' firstRunAt maxLatenessSeconds)
        (s.set k (some (.registering excluded)))
  -- the row is free by now, or has not been there
  | upsert {s : Moving} {k : Nat} {excluded : Schedule}
      (hx : s.transactions k = some (.registering excluded)) (hfree : ¬ s.Locked excluded.name) :
      MovingStep zones s (.upsert k)
        (s.set k (some (.upserted excluded (s.schedules.conflicting excluded))))
  | move {s : Moving} {k : Nat} {excluded written : Schedule}
      (hx : s.transactions k = some (.upserted excluded written)) :
      MovingStep zones s (.commit k)
        { s.set k none with
          schedules := s.schedules.put written
          registered := Function.update s.registered excluded.name (some excluded.definition) }
  | rollback {s : Moving} {k : Nat} {x : Transaction} (hx : s.transactions k = some x) :
      MovingStep zones s (.rollback k) (s.set k none)

def moving (zones : ZoneInfo) : System Moving MovingAct where
  init := (· = Moving.start)
  step := MovingStep zones

/-- Passes hold rows as they are, and what is to be written fits its own clock. -/
def Transaction.Sound (zones : ZoneInfo) (schedules : Schedules) : Transaction → Prop
  | .pass p => (∀ r ∈ p.rows, schedules.row r.name = some r) ∧
      ∀ h ∈ p.handled, (h.1.advanced h.2).OnClock zones
  | .registering excluded => excluded.OnClock zones
  | .upserted excluded written =>
      excluded.OnClock zones ∧ written = schedules.conflicting excluded

-- It is enough that the locked rows stay as they are.
theorem Transaction.Sound.frame {zones : ZoneInfo} {schedules schedules' : Schedules}
    {x : Transaction} (h : x.Sound zones schedules)
    (hsame : ∀ name ∈ x.locks, schedules'.row name = schedules.row name) :
    x.Sound zones schedules' := by
  cases x with
  | pass p =>
      exact ⟨fun r hr ↦ (hsame r.name (List.mem_map_of_mem hr)).trans (h.1 r hr), h.2⟩
  | registering excluded => exact h
  | upserted excluded written =>
      refine ⟨h.1, h.2.trans ?_⟩
      unfold Schedules.conflicting
      rw [hsame excluded.name (List.mem_singleton_self _)]

namespace Moving

structure Inv (zones : ZoneInfo) (s : Moving) : Prop where
  onClock : ∀ name row, s.schedules.row name = some row → row.OnClock zones
  registered : ∀ name, (s.schedules.row name).map Schedule.definition = s.registered name
  sound : ∀ k x, s.transactions k = some x → x.Sound zones s.schedules
  exclusive : ∀ k k' x x' name, s.transactions k = some x → s.transactions k' = some x' →
    name ∈ x.locks → name ∈ x'.locks → k = k'

variable {zones : ZoneInfo} {s : Moving} {k : Nat} {x y : Transaction}

theorem inv_start : Inv zones start where
  onClock name row h := by cases h
  registered name := rfl
  sound k x h := by cases h
  exclusive k k' x x' name h := by cases h

theorem transactions_of_set_none {k' : Nat} (hy : (s.set k none).transactions k' = some y) :
    k' ≠ k ∧ s.transactions k' = some y := by
  change Function.update s.transactions k none k' = some y at hy
  by_cases hk : k' = k
  · rw [hk, Function.update_self] at hy
    cases hy
  · rw [Function.update_of_ne hk] at hy
    exact ⟨hk, hy⟩

-- A transaction may go on if it takes only free locks.
theorem Inv.set (h : s.Inv zones) (hsound : y.Sound zones s.schedules)
    (hlocks : ∀ name ∈ y.locks,
      (∃ x, s.transactions k = some x ∧ name ∈ x.locks) ∨ ¬ s.Locked name) :
    (s.set k (some y)).Inv zones := by
  have hother {k' : Nat} {z : Transaction} {name : String} (hk : k' ≠ k)
      (hz : s.transactions k' = some z) (hname : name ∈ z.locks) : name ∉ y.locks := by
    intro hmine
    rcases hlocks name hmine with ⟨x, hx, hheld⟩ | hfree
    · exact hk (h.exclusive k' k z x name hz hx hname hheld)
    · exact hfree ⟨k', z, hz, hname⟩
  refine ⟨h.onClock, h.registered, fun k' z hz ↦ ?_, fun a b z z' name hz hz' hname hname' ↦ ?_⟩
  · change Function.update s.transactions k (some y) k' = some z at hz
    by_cases hk : k' = k
    · rw [hk, Function.update_self, Option.some.injEq] at hz
      rw [← hz]
      exact hsound
    · rw [Function.update_of_ne hk] at hz
      exact h.sound k' z hz
  · change Function.update s.transactions k (some y) a = some z at hz
    change Function.update s.transactions k (some y) b = some z' at hz'
    by_cases ha : a = k <;> by_cases hb : b = k
    · rw [ha, hb]
    · rw [ha, Function.update_self, Option.some.injEq] at hz
      rw [Function.update_of_ne hb] at hz'
      exact absurd (hz ▸ hname) (hother hb hz' hname')
    · rw [Function.update_of_ne ha] at hz
      rw [hb, Function.update_self, Option.some.injEq] at hz'
      exact absurd (hz' ▸ hname') (hother ha hz hname)
    · rw [Function.update_of_ne ha] at hz
      rw [Function.update_of_ne hb] at hz'
      exact h.exclusive a b z z' name hz hz' hname hname'

-- A transaction that ends may write the rows that it has locked.
theorem Inv.close (h : s.Inv zones) (hx : s.transactions k = some x) {schedules : Schedules}
    {registered : String → Option Definition}
    (hsame : ∀ name, name ∉ x.locks → schedules.row name = s.schedules.row name)
    (hclock : ∀ name row, schedules.row name = some row → row.OnClock zones)
    (hregistered : ∀ name, (schedules.row name).map Schedule.definition = registered name) :
    Inv zones { s.set k none with schedules := schedules, registered := registered } := by
  refine ⟨hclock, hregistered, fun k' y hy ↦ ?_, fun a b y y' name hy hy' ↦ ?_⟩
  · obtain ⟨hk, hy⟩ := transactions_of_set_none hy
    refine (h.sound k' y hy).frame fun name hname ↦ hsame name fun hmine ↦ ?_
    exact hk (h.exclusive k' k y x name hy hx hname hmine)
  · exact h.exclusive a b y y' name (transactions_of_set_none hy).2
      (transactions_of_set_none hy').2

theorem Inv.rollback (h : s.Inv zones) (hx : s.transactions k = some x) :
    (s.set k none).Inv zones :=
  h.close hx (fun _ _ ↦ rfl) h.onClock h.registered

theorem Inv.finish {p : Pass} (h : s.Inv zones) (hp : s.transactions k = some (.pass p)) :
    Inv zones { s.set k none with schedules := s.schedules.advance p.handled } := by
  obtain ⟨hrows, hadvanced⟩ := h.sound k _ hp
  have hheld {r : Schedule × Decision} (hr : r ∈ p.handled) : r.1 ∈ p.rows :=
    List.mem_append_right _ (List.mem_map_of_mem hr)
  refine h.close hp (fun name hname ↦ ?_) (fun name row hrow ↦ ?_) (fun name ↦ ?_)
  · refine (Schedules.row_advance _ _ name).resolve_right ?_
    rintro ⟨r, hr, rfl, -⟩
    exact hname (List.mem_map_of_mem (hheld hr))
  · rcases Schedules.row_advance s.schedules p.handled name with hsame | ⟨r, hr, rfl, hlast⟩
    · exact h.onClock name row (hsame.symm.trans hrow)
    · rw [hlast, hrows r.1 (hheld hr)] at hrow
      cases hrow
      exact hadvanced r hr
  · rw [Schedules.definition_advance]
    exact h.registered name

theorem Inv.move {excluded written : Schedule} (h : s.Inv zones)
    (hx : s.transactions k = some (.upserted excluded written)) :
    Inv zones
      { s.set k none with
        schedules := s.schedules.put written
        registered := Function.update s.registered excluded.name (some excluded.definition) } := by
  obtain ⟨hexcluded, rfl⟩ := h.sound k _ hx
  have hput := s.schedules.row_put (s.schedules.conflicting excluded)
  rw [Schedules.name_conflicting] at hput
  refine h.close hx (fun name hname ↦ ?_) (fun name row hrow ↦ ?_) (fun name ↦ ?_)
  · rw [hput, if_neg fun he ↦ hname (List.mem_singleton.mpr he.symm)]
  · rw [hput] at hrow
    by_cases hname : excluded.name = name
    · rw [if_pos hname] at hrow
      cases hrow
      exact Schedules.onClock_conflicting hexcluded fun old ↦ h.onClock _ old
    · rw [if_neg hname] at hrow
      exact h.onClock name row hrow
  · rw [hput]
    by_cases hname : excluded.name = name
    · rw [if_pos hname, ← hname, Function.update_self, Option.map_some,
        Schedules.definition_conflicting]
    · rw [if_neg hname, Function.update_of_ne (Ne.symm hname)]
      exact h.registered name

theorem Inv.step {a : MovingAct} {t : Moving} (h : s.Inv zones) (ha : MovingStep zones s a t) :
    t.Inv zones := by
  cases ha with
  | begin hnew =>
      refine h.set ⟨fun r hr ↦ ?_, fun r hr ↦ ?_⟩ fun name hname ↦ ?_
      · exact absurd hr List.not_mem_nil
      · exact absurd hr List.not_mem_nil
      · exact absurd hname List.not_mem_nil
  | lock hp hrow hdue hfree =>
      obtain ⟨hrows, hadvanced⟩ := h.sound _ _ hp
      refine h.set ⟨fun r hr ↦ ?_, hadvanced⟩ fun name hname ↦ ?_
      · rcases List.mem_cons.mp hr with rfl | hr
        · exact hrow
        · exact hrows r hr
      · rcases List.mem_cons.mp hname with rfl | hname
        · exact Or.inr hfree
        · exact Or.inl ⟨_, hp, hname⟩
  | @handle k session p row rest d hp hdue hd =>
      obtain ⟨hrows, hadvanced⟩ := h.sound _ _ hp
      -- the row has only moved to the other list
      have hmem : ∀ r, r ∈ rest ++ (p.handled ++ [(row, d)]).map Prod.fst → r ∈ p.rows := by
        intro r hr
        rw [Pass.rows, hdue]
        simp only [List.map_append, List.map_cons, List.map_nil, List.mem_append,
          List.mem_cons, List.cons_append] at hr ⊢
        tauto
      refine h.set ⟨fun r hr ↦ hrows r (hmem r hr), fun r hr ↦ ?_⟩ fun name hname ↦ ?_
      · rcases List.mem_append.mp hr with hr | hr
        · exact hadvanced r hr
        · rw [List.mem_singleton.mp hr]
          exact Schedule.onClock_advanced hd
      · obtain ⟨r, hr, rfl⟩ := List.mem_map.mp hname
        exact Or.inl ⟨_, hp, List.mem_map_of_mem (hmem r hr)⟩
  | finish hp hdone => exact h.finish hp
  | register hnew hrow =>
      exact h.set (Schedules.onClock_excludedRow hrow) fun name hname ↦
        absurd hname List.not_mem_nil
  | upsert hx hfree =>
      refine h.set ⟨h.sound _ _ hx, rfl⟩ fun name hname ↦ Or.inr ?_
      rw [List.mem_singleton.mp hname]
      exact hfree
  | move hx => exact h.move hx
  | rollback hx => exact h.rollback hx

theorem inv_of_reachable (h : (moving zones).Reachable s) : s.Inv zones :=
  h.invariant (fun _ h₀ ↦ h₀ ▸ inv_start) fun _ _ _ hinv ha ↦ hinv.step ha

/-- A clock schedule is due at a slot of the definition that was registered last, and the rows that
a pass is about to advance are still as it has read them. -/
theorem clock_rows_at_slots (h : (moving zones).Reachable s) :
    (∀ name row c, s.schedules.row name = some row → row.when = .clock c →
      row.nextRunAt ∈ c.slots zones) ∧
    (∀ name, (s.schedules.row name).map Schedule.definition = s.registered name) ∧
    (∀ k p, s.transactions k = some (.pass p) → ∀ r ∈ p.rows,
      s.schedules.row r.name = some r) := by
  have hinv := inv_of_reachable h
  exact ⟨fun name row c hrow hc ↦ hinv.onClock name row hrow c hc, hinv.registered,
    fun k p hp ↦ (hinv.sound k _ hp).1⟩

def onTheHour : Clock := ⟨.hour, ⟨0, by decide⟩, "UTC"⟩

def halfPast : Clock := ⟨.hour, ⟨1800000000, by decide⟩, "UTC"⟩

def digest (clock : Clock) (nextRunAt : Int) : Schedule :=
  ⟨"digest", "send_digest", "{}", .clock clock, none, nextRunAt⟩

/-- A pass that comes between the reading and the upsert of a move does not undo it. -/
theorem moved_around_pass : ∃ s, (moving fun _ ↦ none).Reachable s ∧
    s.schedules.row "digest" = some (digest halfPast 5400000000) ∧
    5400000000 ∈ halfPast.slots fun _ ↦ none := by
  have hregister (s : Moving) (k : Nat) (now next : Int) (clock : Clock)
      (hnew : s.transactions k = none) (hnext : clock.after (fun _ ↦ none) now = some next) :
      MovingStep (fun _ ↦ none) s
        (.register k now "digest" "send_digest" "{}" (.clock clock) none none)
        (s.set k (some (.registering (digest clock next)))) := by
    refine .register hnew ?_
    simp only [Schedules.excludedRow, hnext]
    rfl
  have h₁ := (System.Reachable.init (M := moving fun _ ↦ none) rfl).step
    (hregister start 0 0 3600000000 onTheHour rfl (by decide))
  have h₃ := (h₁.step (@MovingStep.upsert _ _ 0 _ rfl (by
    rintro ⟨_ | k, x, hx, hname⟩
    · cases hx
      exact List.not_mem_nil hname
    · cases hx))).step (@MovingStep.move _ _ 0 _ _ rfl)
  have h₅ := (h₃.step (hregister _ 1 3600000000 5400000000 halfPast rfl (by decide))).step
    (@MovingStep.begin _ _ 2 3600000000 rfl)
  have h₇ := (h₅.step (@MovingStep.lock _ _ 2 _ (digest onTheHour 3600000000) rfl
    (by decide +kernel) (by decide) (by
      rintro ⟨_ | _ | _ | k, x, hx, hname⟩ <;> cases hx <;> exact List.not_mem_nil hname))).step
    (@MovingStep.handle _ _ 2 (.fixed 0 (by decide)) _ _ _ _ rfl rfl rfl)
  have h₁₀ := ((h₇.step (@MovingStep.finish _ _ 2 _ rfl rfl)).step
    (@MovingStep.upsert _ _ 1 _ rfl (by
      rintro ⟨_ | _ | _ | k, x, hx, hname⟩ <;> cases hx
      exact List.not_mem_nil hname))).step (@MovingStep.move _ _ 1 _ _ rfl)
  exact ⟨_, h₁₀, by decide +kernel,
    (clock_rows_at_slots h₁₀).1 "digest" (digest halfPast 5400000000) halfPast
      (by decide +kernel) rfl⟩

end Moving

end DurableQueue
