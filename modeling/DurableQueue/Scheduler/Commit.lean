import DurableQueue.Scheduler.Pass
import Mathlib.Data.List.Perm.Basic

/-!
# Commits

What the commit of a pass does to the two tables, the invariant of the promised steps, and the order
of the slots that are handled if `next_run_at` is never wound back.
-/

open Reasoning

namespace DurableQueue

namespace Scheduling

/-- What is known of the rest of a pass's rows while it commits. -/
structure Ready (zones : ZoneInfo) (session : Zone) (s : Scheduling) (now : Int)
    (l : List (Schedule × Decision)) : Prop where
  free : ∀ h ∈ l, ¬ s.Locked h.1.name
  row : ∀ h ∈ l, s.schedules.row h.1.name = some h.1
  due : ∀ h ∈ l, h.1.nextRunAt ≤ now
  decision : ∀ h ∈ l, h.1.handle zones session now = some h.2
  nodup : (l.map fun h ↦ h.1.name).Nodup

variable {zones : ZoneInfo} {session : Zone} {s t : Scheduling} {now o : Int} {k : Nat} {p : Pass}
  {ho : -dayLength < o ∧ o < dayLength} {h : Schedule × Decision} {l : List (Schedule × Decision)}

theorem Inv.ready (hs : s.Inv zones session) (hp : s.passes k = some p) (hdone : p.due = []) :
    Ready zones session (s.setPass k none) p.now p.handled := by
  have hholds := hs.holds k p hp
  have hrows : p.rows = p.handled.map Prod.fst := by rw [Pass.rows, hdone, List.nil_append]
  have hmem {h : Schedule × Decision} (hh : h ∈ p.handled) : h.1 ∈ p.rows :=
    hrows ▸ List.mem_map_of_mem hh
  refine ⟨?_, fun h hh ↦ hholds.row _ (hmem hh), fun h hh ↦ hholds.due _ (hmem hh),
    hholds.decision, ?_⟩
  · rintro h hh ⟨k', q, hq, hname⟩
    obtain ⟨hk, hq⟩ := passes_of_drop hq
    exact hk (hs.disjoint k' k q p h.1.name hq hp hname (List.mem_map_of_mem (hmem hh)))
  · have hnodup := hholds.nodup
    rw [hrows, List.map_map] at hnodup
    exact hnodup

theorem row_finish (now : Int) (s : Scheduling) (h : Schedule × Decision) (name : String) :
    (finish now s h).schedules.row name =
      if h.1.name = name then
        (s.schedules.row name).map fun r ↦ { r with nextRunAt := h.2.nextRunAt }
      else s.schedules.row name :=
  Schedules.row_setNextRunAt s.schedules h.1.name name h.2.nextRunAt

theorem Ready.finish (hl : Ready zones session s now (h :: l)) :
    Ready zones session (finish now s h) now l := by
  obtain ⟨hnew, hnodup⟩ := List.nodup_cons.mp hl.nodup
  refine ⟨fun x hx ↦ hl.free x (List.mem_cons_of_mem h hx), fun x hx ↦ ?_,
    fun x hx ↦ hl.due x (List.mem_cons_of_mem h hx),
    fun x hx ↦ hl.decision x (List.mem_cons_of_mem h hx), hnodup⟩
  have hne : h.1.name ≠ x.1.name := fun he ↦ hnew (List.mem_map.mpr ⟨x, hx, he.symm⟩)
  rw [row_finish, if_neg hne]
  exact hl.row x (List.mem_cons_of_mem h hx)

theorem Ready.collapses (hl : Ready zones (.fixed o ho) s now l) (hs : s.Inv zones (.fixed o ho))
    (hh : h ∈ l) : h.1.Collapses zones now h.2 := by
  obtain ⟨hadm, -⟩ := hs.slot h.1.name h.1 (hl.row h hh)
  obtain ⟨d, hd, hcollapses⟩ := Schedule.handle_collapses now ho hadm
  rw [hl.decision h hh, Option.some.injEq] at hd
  rw [hd]
  exact hcollapses

/-! ## The jobs table -/

theorem row_finish_job {id : Nat} {r : Job} (now : Int) (h : Schedule × Decision)
    (hr : s.jobs.row id = some r) : (finish now s h).jobs.row id = some r := by
  unfold Scheduling.finish
  cases h.2.key with
  | none => exact hr
  | some key => exact Jobs.row_enqueue_of_some h.1.task h.1.args (some key) now hr

-- The id that is logged is that of the row with the key.
theorem job_finish {key : String} (now : Int) (s : Scheduling) (hkey : h.2.key = some key) :
    ∃ id r, (finish now s h).log = ⟨h.1, now, h.2, some id⟩ :: s.log ∧
      (finish now s h).jobs.row id = some r ∧ r.idempotencyKey = some key := by
  obtain ⟨r, hr, hrkey⟩ := Jobs.row_enqueue_id s.jobs h.1.task h.1.args key now
  refine ⟨(s.jobs.enqueue h.1.task h.1.args (some key) now).2, r, ?_, ?_, hrkey⟩
  · unfold Scheduling.finish
    rw [hkey]
    rfl
  · unfold Scheduling.finish
    rw [hkey]
    exact hr

theorem job_finish_none (now : Int) (s : Scheduling) (hkey : h.2.key = none) :
    (finish now s h).log = ⟨h.1, now, h.2, none⟩ :: s.log ∧ (finish now s h).jobs = s.jobs := by
  unfold Scheduling.finish
  rw [hkey]
  exact ⟨rfl, rfl⟩

-- A row of the jobs table is an old one, or has the key of the slot.
theorem row_finish_new {id : Nat} {r : Job} (hr : (finish now s h).jobs.row id = some r) :
    s.jobs.row id = some r ∨ ∃ key, h.2.key = some key ∧ r.idempotencyKey = some key := by
  unfold Scheduling.finish at hr
  cases hkey : h.2.key with
  | none =>
      rw [hkey] at hr
      exact Or.inl hr
  | some key =>
      rw [hkey] at hr
      have hr : (s.jobs.enqueue h.1.task h.1.args (some key) now).1.row id = some r := hr
      rcases Jobs.row_enqueue s.jobs id h.1.task h.1.args (some key) now with hsame | ⟨-, hnew⟩
      · exact Or.inl (hsame ▸ hr)
      · right
        rw [hnew, Option.some.injEq] at hr
        exact ⟨key, rfl, hr ▸ rfl⟩

/-! ## Step by step -/

theorem Inv.finish (hs : s.Inv zones (.fixed o ho))
    (hl : Ready zones (.fixed o ho) s now (h :: l)) :
    (finish now s h).Inv zones (.fixed o ho) := by
  have hmem : h ∈ h :: l := List.mem_cons_self
  have hcollapses := hl.collapses hs hmem
  have hrow := hl.row h hmem
  obtain ⟨hadm, -⟩ := hs.slot h.1.name h.1 hrow
  -- the UPDATE moves from slot to slot, so the schedule has the slots it had
  have hslots := Schedule.slots_of_mem hcollapses.next.1.1
  have hrow' : (s.schedules.setNextRunAt h.1.name h.2.nextRunAt).row h.1.name =
      some { h.1 with nextRunAt := h.2.nextRunAt } := by
    rw [Schedules.row_setNextRunAt, if_pos rfl, hrow, Option.map_some]
  have hschedule : (s.setSchedule (s.schedules.setNextRunAt h.1.name h.2.nextRunAt)
      h.1.name).Inv zones (.fixed o ho) := by
    apply hs.setSchedule (hl.free h hmem) hrow' ?_ hadm ?_ ?_
    · intro n hn
      rw [Schedules.row_setNextRunAt, if_neg (Ne.symm hn)]
    · rw [hslots]
      exact hcollapses.next.1.1
    · intro row hn
      rw [hrow, Option.some.injEq] at hn
      rw [hslots, hn]
  -- the enqueue adds a row at most
  have hjobs : Inv zones (.fixed o ho)
      { s.setSchedule (s.schedules.setNextRunAt h.1.name h.2.nextRunAt) h.1.name with
        jobs := (Scheduling.finish now s h).jobs } :=
    hschedule.setJobs fun id r hr ↦ ⟨r, row_finish_job now h hr, rfl⟩
  -- and the new entry of the log is about a schedule and a job that are there
  refine ⟨hjobs.slot, hjobs.held, hjobs.holds, hjobs.disjoint, ?_, ?_⟩
  · intro f hf
    rcases List.mem_cons.mp hf with hnew | hold
    · rw [hnew]
      exact ⟨_, hrow'⟩
    · exact hjobs.known f hold
  · intro f hf id hid
    cases hkey : h.2.key with
    | none =>
        rw [(job_finish_none now s hkey).1] at hf
        rcases List.mem_cons.mp hf with hnew | hold
        · rw [hnew] at hid
          cases hid
        · exact hjobs.job f hold id hid
    | some key =>
        obtain ⟨id', r, hlog, hr, hrkey⟩ := job_finish now s hkey
        rw [hlog] at hf
        rcases List.mem_cons.mp hf with hnew | hold
        · rw [hnew, Option.some.injEq] at hid
          rw [← hid, hnew]
          have hslot := hcollapses.key.symm.trans hkey
          split at hslot
          · cases hslot
          · exact ⟨r, hr, hrkey.trans hslot.symm⟩
        · exact hjobs.job f hold id hid

theorem Inv.finishAll (hs : s.Inv zones (.fixed o ho)) (hl : Ready zones (.fixed o ho) s now l) :
    (l.foldl (Scheduling.finish now) s).Inv zones (.fixed o ho) := by
  induction l generalizing s with
  | nil => exact hs
  | cons h l ih => exact ih (hs.finish hl) hl.finish

-- Registering a definition once more leaves the rows that there are as they are.
theorem row_registered {name task : String} {args : Json} {when' : When} {schedules : Schedules}
    {firstRunAt maxLatenessSeconds : Option Int} {P : Zone → Prop}
    (hpromise : Promised P zones s
      (.register now name task args when' firstRunAt maxLatenessSeconds))
    (hreg : s.schedules.registerSchedule zones now name task args when' firstRunAt
      maxLatenessSeconds = some schedules) {n : String} {row : Schedule}
    (hn : s.schedules.row n = some row) : schedules.row n = some row := by
  obtain ⟨next, hu, -⟩ := Schedules.registerSchedule_some hreg
  rw [hu, Schedules.row_upsert]
  by_cases hname : name = n
  · subst hname
    rw [if_pos rfl, hn, Option.map_some, Option.getD_some,
      Schedules.onConflict_self (hpromise.2 row hn)]
  · rw [if_neg hname, hn]

-- The promised steps keep the invariant.
theorem Inv.step {a : SchedulingAct} (hs : s.Inv zones (.fixed o ho))
    (hpromise : Promised Clock.Regular zones s a)
    (ha : SchedulingStep zones (.fixed o ho) s a t) : t.Inv zones (.fixed o ho) := by
  cases ha with
  | @begin k now hnew =>
      apply hs.setPass
      · exact ⟨fun r hr ↦ absurd hr List.not_mem_nil, fun r hr ↦ absurd hr List.not_mem_nil,
          fun h hh ↦ absurd hh List.not_mem_nil, List.nodup_nil⟩
      · exact fun n hn ↦ absurd hn List.not_mem_nil
  | @lock k p row hp hrow hdue hfree =>
      have hholds := hs.holds k p hp
      apply hs.setPass
      · refine ⟨fun r hr ↦ ?_, fun r hr ↦ ?_, hholds.decision, ?_⟩
        · rcases List.mem_cons.mp hr with hnew | hold
          · exact hnew ▸ hrow
          · exact hholds.row r hold
        · rcases List.mem_cons.mp hr with hnew | hold
          · exact hnew ▸ hdue
          · exact hholds.due r hold
        · exact List.nodup_cons.mpr ⟨fun hmem ↦ hfree ⟨k, p, hp, hmem⟩, hholds.nodup⟩
      · intro n hn
        rcases List.mem_cons.mp hn with hnew | hold
        · exact Or.inr (hnew ▸ hfree)
        · exact Or.inl ⟨p, hp, hold⟩
  | @handle k p row rest d hp hdue hd =>
      have hholds := hs.holds k p hp
      -- the same rows in another order
      have hperm : (rest ++ (p.handled ++ [(row, d)]).map Prod.fst).Perm p.rows := by
        rw [Pass.rows, hdue, List.map_append, ← List.append_assoc]
        exact List.perm_append_singleton row (rest ++ p.handled.map Prod.fst)
      have hmem {r : Schedule} : r ∈ rest ++ (p.handled ++ [(row, d)]).map Prod.fst ↔
        r ∈ p.rows := hperm.mem_iff
      apply hs.setPass
      · refine ⟨fun r hr ↦ hholds.row r (hmem.mp hr), fun r hr ↦ hholds.due r (hmem.mp hr), ?_,
          (hperm.map Schedule.name).nodup_iff.mpr hholds.nodup⟩
        intro h hh
        rcases List.mem_append.mp hh with hold | hnew
        · exact hholds.decision h hold
        · rw [List.mem_singleton.mp hnew]
          exact hd
      · exact fun n hn ↦ Or.inl ⟨p, hp, (hperm.map Schedule.name).mem_iff.mp hn⟩
  | @commit k p hp hdone => exact hs.dropPass.finishAll (hs.ready hp hdone)
  | crash hp => exact hs.dropPass
  | @register now name task args when' firstRunAt maxLatenessSeconds schedules hfree hreg =>
      obtain ⟨next, hu, hslot⟩ := Schedules.registerSchedule_some hreg
      have hother (n : String) (hn : n ≠ name) : schedules.row n = s.schedules.row n := by
        rw [hu, Schedules.row_upsert, if_neg (Ne.symm hn)]
      cases hold : s.schedules.row name with
      | none =>
          -- a new schedule starts at a slot of its own
          have hrow : schedules.row name =
              some ⟨name, task, args, when', maxLatenessSeconds, next⟩ := by
            rw [hu, Schedules.row_upsert, if_pos rfl, hold, Option.map_none, Option.getD_none]
          apply hs.setSchedule hfree hrow hother hpromise.1 (hslot _ hpromise.1)
          intro row hn
          rw [hold] at hn
          cases hn
      | some row =>
          have hrow : schedules.row name = some row := row_registered hpromise hreg hold
          obtain ⟨hadm, hslot⟩ := hs.slot name row hold
          apply hs.setSchedule hfree hrow hother hadm hslot
          intro row' hn
          rw [hold, Option.some.injEq] at hn
          rw [hn]
  | @rewind name instant hfree =>
      obtain ⟨row, hrow, hmem⟩ := hs.held name instant hpromise
      have hslots := Schedule.slots_of_mem hmem
      have hrow' : (s.schedules.setNextRunAt name instant).row name =
          some { row with nextRunAt := instant } := by
        rw [Schedules.row_setNextRunAt, if_pos rfl, hrow, Option.map_some]
      apply hs.setSchedule hfree hrow' ?_ (hs.slot name row hrow).1 ?_ ?_
      · intro n hn
        rw [Schedules.row_setNextRunAt, if_neg (Ne.symm hn)]
      · rw [hslots]
        exact hmem
      · intro row' hn
        rw [hrow, Option.some.injEq] at hn
        rw [hslots, hn]
  | @call c => exact hs.setJobs fun id r hr ↦ Call.keepsKeys hpromise hr

theorem inv_of_reachable
    (hs : ((scheduling zones (.fixed o ho)).restrict (Promised Clock.Regular zones)).Reachable s) :
    s.Inv zones (.fixed o ho) := by
  apply hs.invariant
  · rintro s rfl
    exact inv_start
  · intro s a t hs ha
    exact hs.step ha.1 ha.2

/-! ## A whole commit -/

theorem row_finishAll_of_not_mem {name : String} (hname : name ∉ l.map fun h ↦ h.1.name) :
    (l.foldl (Scheduling.finish now) s).schedules.row name = s.schedules.row name := by
  induction l generalizing s with
  | nil => rfl
  | cons h l ih =>
      rw [List.map_cons, List.mem_cons, not_or] at hname
      rw [List.foldl_cons, ih hname.2, row_finish, if_neg (Ne.symm hname.1)]

theorem row_finishAll (hl : Ready zones session s now l) (hh : h ∈ l) :
    (l.foldl (Scheduling.finish now) s).schedules.row h.1.name =
      some { h.1 with nextRunAt := h.2.nextRunAt } := by
  induction l generalizing s with
  | nil => exact absurd hh List.not_mem_nil
  | cons x l ih =>
      rcases List.mem_cons.mp hh with hx | hrest
      · subst hx
        rw [List.foldl_cons, row_finishAll_of_not_mem (List.nodup_cons.mp hl.nodup).1, row_finish,
          if_pos rfl, hl.row h List.mem_cons_self, Option.map_some]
      · exact ih hl.finish hrest

theorem job_finishAll_of_some {id : Nat} {r : Job} (hr : s.jobs.row id = some r) :
    (l.foldl (Scheduling.finish now) s).jobs.row id = some r := by
  induction l generalizing s with
  | nil => exact hr
  | cons h l ih => exact ih (row_finish_job now h hr)

theorem job_finishAll {key : String} (hh : h ∈ l) (hkey : h.2.key = some key) :
    ∃ id r, (l.foldl (Scheduling.finish now) s).jobs.row id = some r ∧
      r.idempotencyKey = some key := by
  induction l generalizing s with
  | nil => exact absurd hh List.not_mem_nil
  | cons x l ih =>
      rcases List.mem_cons.mp hh with hx | hrest
      · subst hx
        obtain ⟨id, r, -, hr, hrkey⟩ := job_finish now s hkey
        exact ⟨id, r, job_finishAll_of_some (l := l) hr, hrkey⟩
      · exact ih hrest

theorem job_finishAll_new {id : Nat} {r : Job}
    (hr : (l.foldl (Scheduling.finish now) s).jobs.row id = some r) :
    s.jobs.row id = some r ∨
      ∃ h ∈ l, ∃ key, h.2.key = some key ∧ r.idempotencyKey = some key := by
  induction l generalizing s with
  | nil => exact Or.inl hr
  | cons x l ih =>
      rcases ih hr with hold | ⟨h, hh, hkey⟩
      · rcases row_finish_new hold with hold | hkey
        · exact Or.inl hold
        · exact Or.inr ⟨x, List.mem_cons_self, hkey⟩
      · exact Or.inr ⟨h, List.mem_cons_of_mem x hh, hkey⟩

theorem row_finishAll_of_some {name : String} {row : Schedule}
    (hrow : s.schedules.row name = some row) :
    ∃ row', (l.foldl (Scheduling.finish now) s).schedules.row name = some row' := by
  induction l generalizing s row with
  | nil => exact ⟨row, hrow⟩
  | cons h l ih =>
      by_cases hname : h.1.name = name
      · exact ih (by rw [row_finish, if_pos hname, hrow, Option.map_some])
      · exact ih (by rw [row_finish, if_neg hname, hrow])

-- No step takes a schedule away.
theorem row_of_step {a : SchedulingAct} {name : String} {row : Schedule}
    (ha : SchedulingStep zones session s a t) (hrow : s.schedules.row name = some row) :
    ∃ row', t.schedules.row name = some row' := by
  cases ha with
  | begin | lock | handle | crash | call => exact ⟨row, hrow⟩
  | commit => exact row_finishAll_of_some hrow
  | @register _ changed _ _ _ _ _ schedules hfree hreg =>
      obtain ⟨next, hu, -⟩ := Schedules.registerSchedule_some hreg
      change ∃ row', schedules.row name = some row'
      rw [hu, Schedules.row_upsert]
      split
      · exact ⟨_, rfl⟩
      · exact ⟨row, hrow⟩
  | @rewind changed instant hfree =>
      change ∃ row', (s.schedules.setNextRunAt changed instant).row name = some row'
      rw [Schedules.row_setNextRunAt, hrow, Option.map_some]
      split
      · exact ⟨_, rfl⟩
      · exact ⟨_, rfl⟩

theorem row_of_register {name task : String} {args : Json} {when' : When}
    {firstRunAt maxLatenessSeconds : Option Int}
    (ha : SchedulingStep zones session s
      (.register now name task args when' firstRunAt maxLatenessSeconds) t) :
    ∃ row, t.schedules.row name = some row := by
  cases ha with
  | @register _ _ _ _ _ _ _ schedules hfree hreg =>
      obtain ⟨next, hu, -⟩ := Schedules.registerSchedule_some hreg
      change ∃ row, schedules.row name = some row
      rw [hu, Schedules.row_upsert, if_pos rfl]
      exact ⟨_, rfl⟩

/-- The commit of `p` from `s` to `t`: for each schedule that it processed one run of the last slot,
or none, and the next slot in `next_run_at`; no other job, no other schedule. -/
structure Commits (zones : ZoneInfo) (p : Pass) (s t : Scheduling) : Prop where
  collapses : ∀ h ∈ p.handled, s.schedules.row h.1.name = some h.1 ∧
    h.1.Collapses zones p.now h.2
  next : ∀ h ∈ p.handled,
    t.schedules.row h.1.name = some { h.1 with nextRunAt := h.2.nextRunAt }
  enqueued : ∀ h ∈ p.handled, ∀ key, h.2.key = some key →
    ∃ id r, t.jobs.row id = some r ∧ r.idempotencyKey = some key
  noOtherJob : ∀ id r, t.jobs.row id = some r → s.jobs.row id = some r ∨
    ∃ h ∈ p.handled, ∃ key, h.2.key = some key ∧ r.idempotencyKey = some key
  noOtherSchedule : ∀ name, name ∉ p.rows.map Schedule.name →
    t.schedules.row name = s.schedules.row name

theorem Inv.commits (hs : s.Inv zones (.fixed o ho)) (hp : s.passes k = some p)
    (ha : SchedulingStep zones (.fixed o ho) s (.commit k) t) : Commits zones p s t := by
  cases ha with
  | @commit _ q hq hdone =>
      obtain rfl := Option.some.inj (hp.symm.trans hq)
      have hl := hs.ready hp hdone
      refine ⟨fun h hh ↦ ⟨hl.row h hh, hl.collapses hs.dropPass hh⟩, fun h hh ↦ row_finishAll hl hh,
        fun h hh key hkey ↦ job_finishAll hh hkey,
        fun id r hr ↦ job_finishAll_new (s := s.setPass k none) hr, fun name hname ↦ ?_⟩
      rw [row_finishAll_of_not_mem]
      · rfl
      · intro hmem
        apply hname
        rw [Pass.rows, hdone, List.nil_append, List.map_map]
        exact hmem

/-! ## Slots in order -/

/-- Without a rewind, a schedule is past every slot that it has been handled for. -/
structure Forward (s : Scheduling) : Prop where
  ordered : s.log.Pairwise fun f g ↦ f.row.name = g.row.name → g.decision.slot < f.decision.slot
  past : ∀ f ∈ s.log, ∀ row, s.schedules.row f.row.name = some row →
    f.decision.slot < row.nextRunAt

theorem Forward.finish (hf : s.Forward) (hs : s.Inv zones (.fixed o ho))
    (hl : Ready zones (.fixed o ho) s now (h :: l)) : (Scheduling.finish now s h).Forward := by
  have hmem : h ∈ h :: l := List.mem_cons_self
  have hcollapses := hl.collapses hs hmem
  have hrow := hl.row h hmem
  -- the row is due, so the last slot is not before its `next_run_at`
  have hslot : h.1.nextRunAt ≤ h.2.slot :=
    hcollapses.slot.2 ⟨(hs.slot h.1.name h.1 hrow).2, hl.due h hmem⟩
  have hnext : h.2.slot < h.2.nextRunAt :=
    Int.lt_of_le_of_lt hcollapses.slot.1.2 hcollapses.next.1.2
  constructor
  · refine List.pairwise_cons.mpr ⟨fun g hg hname ↦ ?_, hf.ordered⟩
    have hpast := hf.past g hg h.1 (hname ▸ hrow)
    change g.decision.slot < h.2.slot
    omega
  · intro f hmem row hn
    rw [row_finish] at hn
    rcases List.mem_cons.mp hmem with hnew | hold
    · rw [hnew] at hn ⊢
      rw [if_pos rfl, hrow, Option.map_some, Option.some.injEq] at hn
      rw [← hn]
      exact hnext
    · by_cases hname : h.1.name = f.row.name
      · rw [if_pos hname, ← hname, hrow, Option.map_some, Option.some.injEq] at hn
        have hpast := hf.past f hold h.1 (hname ▸ hrow)
        rw [← hn]
        change f.decision.slot < h.2.nextRunAt
        omega
      · rw [if_neg hname] at hn
        exact hf.past f hold row hn

theorem Forward.finishAll (hf : s.Forward) (hs : s.Inv zones (.fixed o ho))
    (hl : Ready zones (.fixed o ho) s now l) : (l.foldl (Scheduling.finish now) s).Forward := by
  induction l generalizing s with
  | nil => exact hf
  | cons h l ih => exact ih (hf.finish hs hl) (hs.finish hl) hl.finish

theorem Forward.step {a : SchedulingAct} (hf : s.Forward) (hs : s.Inv zones (.fixed o ho))
    (hpromise : PromisedForward Clock.Regular zones s a)
    (ha : SchedulingStep zones (.fixed o ho) s a t) : t.Forward := by
  cases ha with
  | begin hnew => exact ⟨hf.ordered, hf.past⟩
  | lock hp hrow hdue hfree => exact ⟨hf.ordered, hf.past⟩
  | handle hp hdue hd => exact ⟨hf.ordered, hf.past⟩
  | @commit k p hp hdone =>
      have hdrop : (s.setPass k none).Forward := ⟨hf.ordered, hf.past⟩
      exact hdrop.finishAll hs.dropPass (hs.ready hp hdone)
  | crash hp => exact ⟨hf.ordered, hf.past⟩
  | register hfree hreg =>
      refine ⟨hf.ordered, fun f hmem row hn ↦ ?_⟩
      -- the schedule of a slot that has been handled is not new
      obtain ⟨old, hold⟩ := hs.known f hmem
      have hsame := row_registered hpromise.1 hreg hold
      rw [show row = old from Option.some.inj (hn.symm.trans hsame)]
      exact hf.past f hmem old hold
  | @rewind name instant hfree => exact absurd rfl (hpromise.2 name instant)
  | call => exact ⟨hf.ordered, hf.past⟩

theorem forward_of_reachable (hs : ((scheduling zones (.fixed o ho)).restrict
    (PromisedForward Clock.Regular zones)).Reachable s) : s.Forward := by
  refine hs.invariant_with (fun s hs ↦ inv_of_reachable (hs.restrict_mono fun _ _ h ↦ h.1)) ?_ ?_
  · rintro s rfl
    exact ⟨List.Pairwise.nil, fun f hf ↦ absurd hf List.not_mem_nil⟩
  · intro s a t hs hf ha
    exact hf.step hs ha.1 ha.2

end Scheduling

end DurableQueue
