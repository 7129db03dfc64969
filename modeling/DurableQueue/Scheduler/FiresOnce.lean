import DurableQueue.Scheduler.Commit

/-!
# Each slot fires at most once

Runs of any length of any number of schedulers: one job for each slot of a schedule, however often
`next_run_at` is wound back, missed runs collapsed into the last one, and slots in order.
-/

open Reasoning

namespace DurableQueue

namespace Scheduling

variable {zones : ZoneInfo} {session : Zone} {P : Zone → Prop} {s t : Scheduling}
  {now : Int} {k : Nat} {row : Schedule} {d : Decision}

/-- What holds in every state of the promised runs. -/
structure FiresOnce (P : Zone → Prop) (zones : ZoneInfo) (session : Zone) (s : Scheduling) :
    Prop where
  oneRow : ∀ name slot id id' r r', s.jobs.row id = some r → s.jobs.row id' = some r' →
    r.idempotencyKey = some (slotKey name slot) → r'.idempotencyKey = some (slotKey name slot) →
      id = id'
  sameJob : ∀ f ∈ s.log, ∀ id, f.job = some id →
    ∃ r, s.jobs.row id = some r ∧ r.idempotencyKey = some (slotKey f.row.name f.decision.slot)
  commits : ∀ k p t, s.passes k = some p → SchedulingStep zones session s (.commit k) t →
    Commits zones p s t
  ordered : ((scheduling zones session).restrict (PromisedForward P zones)).Reachable s →
    s.log.Pairwise fun f g ↦ f.row.name = g.row.name → g.decision.slot < f.decision.slot
  crashes : ∀ k a t, a.pass = some k → a ≠ .commit k → SchedulingStep zones session s a t →
    t.jobs = s.jobs ∧ t.schedules = s.schedules

-- A pass that does not commit has written nothing.
theorem tables_of_not_commit {a : SchedulingAct} (hpass : a.pass = some k) (hne : a ≠ .commit k)
    (ha : SchedulingStep zones session s a t) : t.jobs = s.jobs ∧ t.schedules = s.schedules := by
  cases ha with
  | begin | lock | handle | crash => exact ⟨rfl, rfl⟩
  | @commit k' p hp hdone =>
      obtain rfl := Option.some.inj hpass
      exact absurd rfl hne
  | register | rewind | call => cases hpass

/-- On zones whose date never goes backwards, and whose clock is set forward by a day at most in
any day, for a session with a fixed offset. -/
theorem schedules_fire_once {o : Int} {ho : -dayLength < o ∧ o < dayLength}
    (hs : ((scheduling zones (.fixed o ho)).restrict (Promised Clock.Regular zones)).Reachable s) :
    s.FiresOnce Clock.Regular zones (.fixed o ho) where
  oneRow name slot id id' r r' hr hr' hkey hkey' := by
    have heq := Jobs.eq_of_key (Jobs.row_mem hr) (Jobs.row_mem hr') hkey hkey'
    rw [← Jobs.row_id hr, ← Jobs.row_id hr', heq]
  sameJob := (inv_of_reachable hs).job
  commits k p t hp ha := (inv_of_reachable hs).commits hp ha
  ordered h := (forward_of_reachable h).ordered
  crashes k a t hpass hne ha := tables_of_not_commit hpass hne ha

/-! ## A pass alone -/

theorem setPass_setPass (s : Scheduling) (k : Nat) (p q : Option Pass) :
    (s.setPass k p).setPass k q = s.setPass k q := by
  unfold setPass
  simp only [Function.update_idem]

theorem setPass_none (s : Scheduling) (hk : s.passes k = none) : s.setPass k none = s := by
  unfold setPass
  rw [← hk, Function.update_eq_self]

theorem reachable_pass {a : SchedulingAct}
    (hs : ((scheduling zones session).restrict (Promised P zones)).Reachable s)
    (hpass : a.pass = some k) (ha : SchedulingStep zones session s a t) :
    ((scheduling zones session).restrict (Promised P zones)).Reachable t :=
  .step hs ⟨promised_of_pass hpass, ha⟩

-- With no other pass open, one that finds a due row gets to handle it.
theorem reachable_handled (now : Int)
    (hs : ((scheduling zones session).restrict (Promised P zones)).Reachable s)
    (hidle : ∀ k, s.passes k = none) (hrow : s.schedules.row row.name = some row)
    (hdue : row.nextRunAt ≤ now) (hd : row.handle zones session now = some d) :
    ((scheduling zones session).restrict (Promised P zones)).Reachable
      (s.setPass 0 (some ⟨now, [], [(row, d)]⟩)) := by
  have hstep : SchedulingStep zones session s (.begin 0 now) (s.setPass 0 (some ⟨now, [], []⟩)) :=
    .begin (hidle 0)
  have hbegin := reachable_pass hs rfl hstep
  -- the pass itself has locked nothing yet
  have hfree : ¬ (s.setPass 0 (some ⟨now, [], []⟩)).Locked row.name := by
    rintro ⟨k, p, hp, hmem⟩
    by_cases hk : k = 0
    · rw [hk, passes_setPass_self, Option.some.injEq] at hp
      rw [← hp] at hmem
      exact absurd hmem List.not_mem_nil
    · have hold : Function.update s.passes 0 (some ⟨now, [], []⟩) k = some p := hp
      rw [Function.update_of_ne hk, hidle] at hold
      cases hold
  have hlock := reachable_pass hbegin (k := 0) rfl
    (.lock (passes_setPass_self s 0 _) hrow hdue hfree)
  have hhandle := reachable_pass hlock (k := 0) rfl (.handle (passes_setPass_self _ 0 _) rfl hd)
  rw [setPass_setPass, setPass_setPass] at hhandle
  exact hhandle

-- And to commit it.
theorem reachable_finish (now : Int)
    (hs : ((scheduling zones session).restrict (Promised P zones)).Reachable s)
    (hidle : ∀ k, s.passes k = none) (hrow : s.schedules.row row.name = some row)
    (hdue : row.nextRunAt ≤ now) (hd : row.handle zones session now = some d) :
    ((scheduling zones session).restrict (Promised P zones)).Reachable (finish now s (row, d)) := by
  have hhandled := reachable_handled now hs hidle hrow hdue hd
  have hcommit := reachable_pass hhandled (k := 0) rfl (.commit (passes_setPass_self s 0 _) rfl)
  rw [setPass_setPass, setPass_none s (hidle 0)] at hcommit
  exact hcommit

/-! ## A rewind, and an irregular zone -/

/-- Hourly, from the epoch on. -/
def hourlyDigest : Schedule := ⟨"digest", "send_digest", "{}", .interval 3600, none, 0⟩

/-- What a pass at 01:30 decides for it. -/
def oneOClock : Schedule × Decision :=
  (hourlyDigest, ⟨3600000000, some (slotKey "digest" 3600000000), 7200000000⟩)

/-- Wound back after a pass at 01:30 and run by another one: one job. -/
theorem schedules_fire_once_rewound :
    ∃ s, ((scheduling (fun _ ↦ none) (.fixed 0 (by decide))).restrict
        (Promised Clock.Regular fun _ ↦ none)).Reachable s ∧
      s.log.map Firing.job = [some 1, some 1] ∧
      s.FiresOnce Clock.Regular (fun _ ↦ none) (.fixed 0 (by decide)) := by
  -- the states after the registration, the first pass and the rewind
  let registered := start.setSchedule (Schedules.empty.upsert hourlyDigest) "digest"
  let fired := finish 5400000000 registered oneOClock
  let rewound := fired.setSchedule (fired.schedules.setNextRunAt "digest" 0) "digest"
  have hregistered : ((scheduling (fun _ ↦ none) (.fixed 0 (by decide))).restrict
      (Promised Clock.Regular fun _ ↦ none)).Reachable registered := by
    refine .step (a := .register 0 "digest" "send_digest" "{}" (.interval 3600) none none)
      (.init rfl) ⟨⟨show (0 : Int) < 3600 by decide, fun row h ↦ by cases h⟩, .register ?_ rfl⟩
    rintro ⟨k, p, hp, -⟩
    cases hp
  have hfired := reachable_finish 5400000000 hregistered (fun k ↦ rfl)
    (show registered.schedules.row oneOClock.1.name = some oneOClock.1 by decide) (by decide)
    (show _ = some oneOClock.2 by decide)
  have hrewound : ((scheduling (fun _ ↦ none) (.fixed 0 (by decide))).restrict
      (Promised Clock.Regular fun _ ↦ none)).Reachable rewound := by
    refine .step (a := .rewind "digest" 0) hfired
      ⟨show ("digest", (0 : Int)) ∈ fired.held by decide, .rewind ?_⟩
    rintro ⟨k, p, hp, -⟩
    cases hp
  have hagain := reachable_finish 5400000000 hrewound (fun k ↦ rfl)
    (show rewound.schedules.row oneOClock.1.name = some oneOClock.1 by decide) (by decide)
    (show _ = some oneOClock.2 by decide)
  exact ⟨_, hagain, by decide, schedules_fire_once hagain⟩

/-- A zone at -20 h, which is set forward by 20 h and, a minute later, by 20 h again. -/
def leaping : Zone where
  base := -72000000000
  transitions := [(0, 0), (60000000, 72000000000)]
  sorted := by decide
  bounded := by decide

theorem offset_leaping (t : Int) :
    leaping.offset t = if t < 0 then -72000000000 else if t < 60000000 then 0 else 72000000000 :=
  rfl

theorem leaping_date : leaping.DateMonotone ∧ leaping.GapsWithinDay := by
  constructor
  · intro t t' h
    unfold Zone.date Zone.wall dayLength
    rw [offset_leaping, offset_leaping]
    split_ifs <;> omega
  · intro t
    unfold dayLength
    rw [offset_leaping, offset_leaping]
    split_ifs <;> omega

/-- Daily at 23:00 there, first due 29 hours before the clock is set forward. -/
def nightly : Schedule :=
  ⟨"digest", "send_digest", "{}", .clock ⟨.day, ⟨82800000000, by decide⟩, "Leaping"⟩, none,
    -104400000000⟩

/-- Twenty hours after it, the slot of the next day is read as 3 h, and that of the day before as
19 h. -/
def threeOClock : Schedule × Decision :=
  (nightly, ⟨10800000000, some (slotKey "digest" 10800000000), 97200000000⟩)

theorem schedules_skip_slot :
    ¬ ∀ (zones : ZoneInfo) (o : Int) (ho : -dayLength < o ∧ o < dayLength) (s : Scheduling),
      ((scheduling zones (.fixed o ho)).restrict
          (Promised (fun z ↦ z.DateMonotone ∧ z.GapsWithinDay) zones)).Reachable s →
        s.FiresOnce (fun z ↦ z.DateMonotone ∧ z.GapsWithinDay) zones (.fixed o ho) := by
  intro hall
  let registered := start.setSchedule (Schedules.empty.upsert nightly) "digest"
  have hregistered : ((scheduling (fun _ ↦ some leaping) (.fixed 0 (by decide))).restrict
      (Promised (fun z ↦ z.DateMonotone ∧ z.GapsWithinDay) fun _ ↦ some leaping)).Reachable
        registered := by
    refine .step (a := .register (-108000000000) "digest" "send_digest" "{}" nightly.when none none)
      (.init rfl) ⟨⟨fun _ ↦ ⟨leaping, rfl, leaping_date⟩, fun row h ↦ by cases h⟩,
        .register ?_ rfl⟩
    rintro ⟨k, p, hp, -⟩
    cases hp
  have hhandled := reachable_handled 72000000000 hregistered (fun k ↦ rfl)
    (show registered.schedules.row threeOClock.1.name = some threeOClock.1 by decide) (by decide)
    (show _ = some threeOClock.2 by decide)
  have hcommits := (hall _ 0 (by decide) _ hhandled).commits 0 ⟨72000000000, [], [threeOClock]⟩ _
    (passes_setPass_self registered 0 _) (.commit (passes_setPass_self registered 0 _) rfl)
  -- 19 h is a slot as well, and later than the one that is run
  have hgreatest := (hcommits.collapses threeOClock (List.mem_singleton_self _)).2.slot
  have hle : (68400000000 : Int) ≤ 10800000000 := by
    refine hgreatest.2 ⟨⟨leaping, -1, rfl, by decide⟩, by decide⟩
  exact absurd hle (by decide)

end Scheduling

end DurableQueue
