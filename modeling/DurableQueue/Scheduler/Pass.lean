import DurableQueue.Jobs.Lifecycle
import DurableQueue.Scheduler.Slots
import Mathlib.Logic.Function.Basic

/-!
# Passes of `run_due_schedules`

Any number of schedulers on one database: each pass is a transaction that locks due rows one after
the other, decides for each, and commits its enqueues together with the advanced `next_run_at`, or
goes away.  In between, schedules are registered, `next_run_at` is wound back, and jobs are worked
on.
-/

open Reasoning

namespace DurableQueue

/-- A transaction under way: the rows it has locked but not handled, and those it has handled. -/
structure Pass where
  now : Int
  due : List Schedule
  handled : List (Schedule × Decision)

def Pass.rows (p : Pass) : List Schedule := p.due ++ p.handled.map Prod.fst

/-- What a committed pass has done for a schedule, and the id that `enqueue` returned. -/
structure Firing where
  row : Schedule
  now : Int
  decision : Decision
  job : Option Nat

/-- The two tables, the open passes, every `next_run_at` there has been, and what has been
committed, the newest first. -/
structure Scheduling where
  jobs : Jobs
  schedules : Schedules
  passes : Nat → Option Pass
  held : List (String × Int)
  log : List Firing

inductive SchedulingAct where
  | begin (k : Nat) (now : Int)
  | lock (k : Nat) (row : Schedule)
  | handle (k : Nat)
  | commit (k : Nat)
  | crash (k : Nat)
  | register (now : Int) (name task : String) (args : Json) (when' : When)
      (firstRunAt maxLatenessSeconds : Option Int)
  | rewind (name : String) (instant : Int)
  | call (c : Call)

/-- The pass that takes the step. -/
def SchedulingAct.pass : SchedulingAct → Option Nat
  | .begin k _ => some k
  | .lock k _ => some k
  | .handle k => some k
  | .commit k => some k
  | .crash k => some k
  | _ => none

namespace Scheduling

def start : Scheduling := ⟨.empty, .empty, fun _ ↦ none, [], []⟩

/-- The row is locked by an open pass. -/
def Locked (s : Scheduling) (name : String) : Prop :=
  ∃ k p, s.passes k = some p ∧ name ∈ p.rows.map Schedule.name

def setPass (s : Scheduling) (k : Nat) (p : Option Pass) : Scheduling :=
  { s with passes := Function.update s.passes k p }

@[simp] theorem passes_setPass_self (s : Scheduling) (k : Nat) (p : Option Pass) :
    (s.setPass k p).passes k = p := by
  simp only [setPass, Function.update_self]

/-- Write the row of one schedule. -/
def setSchedule (s : Scheduling) (schedules : Schedules) (name : String) : Scheduling :=
  { s with
    schedules := schedules
    held := ((schedules.row name).toList.map fun r ↦ (name, r.nextRunAt)) ++ s.held }

/-- The writes for one row that a pass has handled: the enqueue, if any, and the UPDATE. -/
def finish (now : Int) (s : Scheduling) (h : Schedule × Decision) : Scheduling :=
  let enqueued := h.2.key.map fun key ↦ s.jobs.enqueue h.1.task h.1.args (some key) now
  { s.setSchedule (s.schedules.setNextRunAt h.1.name h.2.nextRunAt) h.1.name with
    jobs := (enqueued.map (·.1)).getD s.jobs
    log := ⟨h.1, now, h.2, enqueued.map (·.2)⟩ :: s.log }

end Scheduling

open Scheduling

/-- `FOR UPDATE SKIP LOCKED` takes due rows that are free, in any order; the other writers of a row
wait until it is free.  A row for which the pass raises is never handled, so that pass can only
roll back. -/
inductive SchedulingStep (zones : ZoneInfo) (session : Zone) :
    Scheduling → SchedulingAct → Scheduling → Prop where
  | begin {s : Scheduling} {k : Nat} {now : Int} (hnew : s.passes k = none) :
      SchedulingStep zones session s (.begin k now) (s.setPass k (some ⟨now, [], []⟩))
  | lock {s : Scheduling} {k : Nat} {p : Pass} {row : Schedule} (hp : s.passes k = some p)
      (hrow : s.schedules.row row.name = some row) (hdue : row.nextRunAt ≤ p.now)
      (hfree : ¬ s.Locked row.name) :
      SchedulingStep zones session s (.lock k row)
        (s.setPass k (some { p with due := row :: p.due }))
  | handle {s : Scheduling} {k : Nat} {p : Pass} {row : Schedule} {rest : List Schedule}
      {d : Decision} (hp : s.passes k = some p) (hdue : p.due = row :: rest)
      (hd : row.handle zones session p.now = some d) :
      SchedulingStep zones session s (.handle k)
        (s.setPass k (some { p with due := rest, handled := p.handled ++ [(row, d)] }))
  | commit {s : Scheduling} {k : Nat} {p : Pass} (hp : s.passes k = some p) (hdone : p.due = []) :
      SchedulingStep zones session s (.commit k)
        (p.handled.foldl (finish p.now) (s.setPass k none))
  | crash {s : Scheduling} {k : Nat} {p : Pass} (hp : s.passes k = some p) :
      SchedulingStep zones session s (.crash k) (s.setPass k none)
  | register {s : Scheduling} {now : Int} {name task : String} {args : Json} {when' : When}
      {firstRunAt maxLatenessSeconds : Option Int} {schedules : Schedules}
      (hfree : ¬ s.Locked name)
      (hreg : s.schedules.registerSchedule zones now name task args when' firstRunAt
        maxLatenessSeconds = some schedules) :
      SchedulingStep zones session s
        (.register now name task args when' firstRunAt maxLatenessSeconds)
        (s.setSchedule schedules name)
  | rewind {s : Scheduling} {name : String} {instant : Int} (hfree : ¬ s.Locked name) :
      SchedulingStep zones session s (.rewind name instant)
        (s.setSchedule (s.schedules.setNextRunAt name instant) name)
  | call {s : Scheduling} {c : Call} :
      SchedulingStep zones session s (.call c) { s with jobs := c.run s.jobs }

def scheduling (zones : ZoneInfo) (session : Zone) : System Scheduling SchedulingAct where
  init := (· = Scheduling.start)
  step := SchedulingStep zones session

def JobOp.purges : JobOp → Bool
  | .deleteCompletedJobs .. => true
  | _ => false

/-- A name keeps its definition, on a zone that `P` holds of; `next_run_at` is only wound back to
where it has been; and no job is purged. -/
def Promised (P : Zone → Prop) (zones : ZoneInfo) (s : Scheduling) : SchedulingAct → Prop
  | .register _ name task args when' _ maxLatenessSeconds =>
      when'.Admissible P zones ∧ ∀ row, s.schedules.row name = some row →
        row.task = task ∧ row.args = args ∧ row.when = when' ∧
          row.maxLatenessSeconds = maxLatenessSeconds
  | .rewind name instant => (name, instant) ∈ s.held
  | .call c => c.op.purges = false
  | _ => True

-- Passes have nothing to promise.
theorem promised_of_pass {P : Zone → Prop} {zones : ZoneInfo} {s : Scheduling} {a : SchedulingAct}
    {k : Nat} (hpass : a.pass = some k) : Promised P zones s a := by
  cases a with
  | begin | lock | handle | commit | crash => trivial
  | register | rewind | call => cases hpass

/-- Nor is it wound back at all. -/
def PromisedForward (P : Zone → Prop) (zones : ZoneInfo) (s : Scheduling) (a : SchedulingAct) :
    Prop :=
  Promised P zones s a ∧ ∀ name instant, a ≠ .rewind name instant

/-! ## What passes hold -/

/-- The rows of a pass are as it has read them. -/
structure Pass.Holds (zones : ZoneInfo) (session : Zone) (schedules : Schedules) (p : Pass) :
    Prop where
  row : ∀ r ∈ p.rows, schedules.row r.name = some r
  due : ∀ r ∈ p.rows, r.nextRunAt ≤ p.now
  decision : ∀ h ∈ p.handled, h.1.handle zones session p.now = some h.2
  nodup : (p.rows.map Schedule.name).Nodup

namespace Scheduling

/-- Schedules stand at slots of theirs and have stood at no other times, open passes hold the rows
they have read and share none, and every job that has been fired is there under its key. -/
structure Inv (zones : ZoneInfo) (session : Zone) (s : Scheduling) : Prop where
  slot : ∀ name row, s.schedules.row name = some row →
    row.when.Admissible Clock.Regular zones ∧ row.nextRunAt ∈ row.slots zones
  held : ∀ name x, (name, x) ∈ s.held → ∃ row, s.schedules.row name = some row ∧
    x ∈ row.slots zones
  holds : ∀ k p, s.passes k = some p → p.Holds zones session s.schedules
  disjoint : ∀ k k' p p' name, s.passes k = some p → s.passes k' = some p' →
    name ∈ p.rows.map Schedule.name → name ∈ p'.rows.map Schedule.name → k = k'
  known : ∀ f ∈ s.log, ∃ row, s.schedules.row f.row.name = some row
  job : ∀ f ∈ s.log, ∀ id, f.job = some id →
    ∃ r, s.jobs.row id = some r ∧ r.idempotencyKey = some (slotKey f.row.name f.decision.slot)

variable {zones : ZoneInfo} {session : Zone} {s : Scheduling} {name : String} {k : Nat}

theorem inv_start : Inv zones session start where
  slot name row h := by cases h
  held name x h := absurd h List.not_mem_nil
  holds k p h := by cases h
  disjoint k k' p p' name h := by cases h
  known f h := absurd h List.not_mem_nil
  job f h := absurd h List.not_mem_nil

theorem locked_of {p : Pass} {r : Schedule} (hp : s.passes k = some p) (hr : r ∈ p.rows) :
    s.Locked r.name := ⟨k, p, hp, List.mem_map_of_mem hr⟩

-- A pass may change into one that holds, as long as it takes only free locks.
theorem Inv.setPass (h : s.Inv zones session) {p' : Pass}
    (hholds : p'.Holds zones session s.schedules)
    (hlocks : ∀ n ∈ p'.rows.map Schedule.name,
      (∃ p, s.passes k = some p ∧ n ∈ p.rows.map Schedule.name) ∨ ¬ s.Locked n) :
    (s.setPass k (some p')).Inv zones session := by
  -- no other pass holds a name of the new one
  have hmine {k' : Nat} {q : Pass} {n : String} (hk : k' ≠ k) (hq : s.passes k' = some q)
      (hn : n ∈ q.rows.map Schedule.name) : n ∉ p'.rows.map Schedule.name := by
    intro hn'
    rcases hlocks n hn' with ⟨p, hp, hmem⟩ | hfree
    · exact hk (h.disjoint k' k q p n hq hp hn hmem)
    · exact hfree ⟨k', q, hq, hn⟩
  refine ⟨h.slot, h.held, ?_, ?_, h.known, h.job⟩
  · intro k' q hq
    change Function.update s.passes k (some p') k' = some q at hq
    by_cases hk : k' = k
    · rw [hk, Function.update_self, Option.some.injEq] at hq
      rw [← hq]
      exact hholds
    · rw [Function.update_of_ne hk] at hq
      exact h.holds k' q hq
  · intro a b q q' n hq hq' hn hn'
    change Function.update s.passes k (some p') a = some q at hq
    change Function.update s.passes k (some p') b = some q' at hq'
    by_cases ha : a = k <;> by_cases hb : b = k
    · rw [ha, hb]
    · rw [ha, Function.update_self, Option.some.injEq] at hq
      rw [Function.update_of_ne hb] at hq'
      exact absurd (hq ▸ hn) (hmine hb hq' hn')
    · rw [Function.update_of_ne ha] at hq
      rw [hb, Function.update_self, Option.some.injEq] at hq'
      exact absurd (hq' ▸ hn') (hmine ha hq hn)
    · rw [Function.update_of_ne ha] at hq
      rw [Function.update_of_ne hb] at hq'
      exact h.disjoint a b q q' n hq hq' hn hn'

theorem passes_of_drop {k' : Nat} {q : Pass} (hq : (s.setPass k none).passes k' = some q) :
    k' ≠ k ∧ s.passes k' = some q := by
  change Function.update s.passes k none k' = some q at hq
  by_cases hk : k' = k
  · rw [hk, Function.update_self] at hq
    cases hq
  · rw [Function.update_of_ne hk] at hq
    exact ⟨hk, hq⟩

theorem Inv.dropPass (h : s.Inv zones session) : (s.setPass k none).Inv zones session where
  slot := h.slot
  held := h.held
  holds k' q hq := h.holds k' q (passes_of_drop hq).2
  disjoint a b q q' n hq hq' :=
    h.disjoint a b q q' n (passes_of_drop hq).2 (passes_of_drop hq').2
  known := h.known
  job := h.job

-- A free row may be written, if what was a slot of the schedule still is one.
theorem Inv.setSchedule (h : s.Inv zones session) {schedules : Schedules} {row' : Schedule}
    (hfree : ¬ s.Locked name) (hrow : schedules.row name = some row')
    (hother : ∀ n, n ≠ name → schedules.row n = s.schedules.row n)
    (hadm : row'.when.Admissible Clock.Regular zones) (hmem : row'.nextRunAt ∈ row'.slots zones)
    (hslots : ∀ row, s.schedules.row name = some row → row.slots zones = row'.slots zones) :
    (s.setSchedule schedules name).Inv zones session := by
  refine ⟨?_, ?_, ?_, h.disjoint, ?_, h.job⟩
  · intro n row hn
    change schedules.row n = some row at hn
    by_cases hname : n = name
    · rw [hname, hrow, Option.some.injEq] at hn
      rw [← hn]
      exact ⟨hadm, hmem⟩
    · rw [hother n hname] at hn
      exact h.slot n row hn
  · intro n x hx
    change ∃ row, schedules.row n = some row ∧ x ∈ row.slots zones
    rcases List.mem_append.mp hx with hnew | hold
    · rw [hrow] at hnew
      obtain ⟨hn, hxrow⟩ := Prod.mk.inj (List.mem_singleton.mp hnew)
      rw [hn, hxrow]
      exact ⟨row', hrow, hmem⟩
    · obtain ⟨row, hn, hxrow⟩ := h.held n x hold
      by_cases hname : n = name
      · rw [hname] at hn ⊢
        exact ⟨row', hrow, hslots row hn ▸ hxrow⟩
      · exact ⟨row, (hother n hname).trans hn, hxrow⟩
  · intro k p hp
    have hholds := h.holds k p hp
    refine ⟨fun r hr ↦ ?_, hholds.due, hholds.decision, hholds.nodup⟩
    -- a row that a pass holds is not the one written
    have hne : r.name ≠ name := fun he ↦ hfree (he ▸ locked_of hp hr)
    exact (hother r.name hne).trans (hholds.row r hr)
  · intro f hf
    obtain ⟨row, hrow'⟩ := h.known f hf
    by_cases hname : f.row.name = name
    · exact ⟨row', hname ▸ hrow⟩
    · exact ⟨row, (hother _ hname).trans hrow'⟩

-- Rows of the jobs table may change, but not go away or get another key.
theorem Inv.setJobs (h : s.Inv zones session) {jobs : Jobs}
    (hjobs : ∀ id r, s.jobs.row id = some r →
      ∃ r', jobs.row id = some r' ∧ r'.idempotencyKey = r.idempotencyKey) :
    Inv zones session { s with jobs := jobs } := by
  refine ⟨h.slot, h.held, h.holds, h.disjoint, h.known, fun f hf id hid ↦ ?_⟩
  obtain ⟨r, hr, hkey⟩ := h.job f hf id hid
  obtain ⟨r', hr', hkey'⟩ := hjobs id r hr
  exact ⟨r', hr', hkey'.trans hkey⟩

theorem Call.keepsKeys {c : Call} (hop : c.op.purges = false) {t : Jobs} {id : Nat} {r : Job}
    (hr : t.row id = some r) :
    ∃ r', (c.run t).row id = some r' ∧ r'.idempotencyKey = r.idempotencyKey := by
  have hc := c.run_row t id
  rw [hr] at hc
  cases hr' : (c.run t).row id with
  | none =>
      rw [hr'] at hc
      cases hc with
      -- only a purge takes rows away
      | purged hop' =>
          rw [hop'] at hop
          cases hop
  | some r' =>
      rw [hr'] at hc
      exact ⟨r', rfl, hc.frame.1.2.2.2⟩

end Scheduling

/-! ## Registrations -/

namespace Schedules

variable {zones : ZoneInfo} {t u : Schedules}

theorem registerSchedule_some {now : Int} {name task : String} {args : Json} {when' : When}
    {firstRunAt maxLatenessSeconds : Option Int}
    (h : t.registerSchedule zones now name task args when' firstRunAt maxLatenessSeconds = some u) :
    ∃ next, u = t.upsert ⟨name, task, args, when', maxLatenessSeconds, next⟩ ∧
      ∀ P, when'.Admissible P zones →
        next ∈ Schedule.slots zones ⟨name, task, args, when', maxLatenessSeconds, next⟩ := by
  unfold registerSchedule at h
  cases when' with
  | interval n =>
      cases h
      exact ⟨_, rfl, fun _ _ ↦ Schedule.self_mem_lattice _ _⟩
  | clock c =>
      simp only at h
      split at h
      · cases h
      · obtain ⟨next, hnext, hu⟩ := Option.map_eq_some_iff.mp h
        refine ⟨next, hu.symm, fun P hadm ↦ ?_⟩
        obtain ⟨x, hx, hmem, -⟩ := Clock.after_mem hadm now
        rw [Option.some.inj (hnext.symm.trans hx)]
        exact hmem

-- Registering a definition once more changes nothing.
theorem onConflict_self {r excluded : Schedule}
    (hdef : r.task = excluded.task ∧ r.args = excluded.args ∧ r.when = excluded.when ∧
      r.maxLatenessSeconds = excluded.maxLatenessSeconds) : onConflict excluded r = r := by
  obtain ⟨htask, hargs, hwhen, hmax⟩ := hdef
  unfold onConflict
  rw [hwhen, if_neg (not_not.mpr rfl), ← htask, ← hargs, ← hwhen, ← hmax]

end Schedules

end DurableQueue
