import DurableQueue.Scheduler.IdleLoop
import DurableQueue.Worker.IdleLoop
import DurableQueue.Worker.Listening
import DurableQueue.Jobs.Durability

/-!
# An idle scheduler and an idle worker in one process

The two loops that a `Runner` keeps going, over one database and one generation, among everything
else that happens in their process and around it.  An idle worker hears no notification; the
scheduler wakes it, when the commit of a pass that has fired something has been acknowledged.
-/

open Reasoning

namespace DurableQueue

/-- It is about to call `wake()` for what its pass has fired. -/
def SchedulerPc.fires : SchedulerPc → Bool
  | notify _ fired => fired
  | _ => false

/-- An acknowledged pass of the scheduler: the jobs it has enqueued, the table that its commit has
left, and the generation that the `wake()` after it has left. -/
structure FiredPass where
  jobs : List Nat
  table : Jobs
  woken : Option Nat

def FiredPass.wake (generation : Nat) (f : FiredPass) : FiredPass :=
  { f with woken := some (f.woken.getD generation) }

theorem FiredPass.wake_of_some {f : FiredPass} {g : Nat} (h : f.woken = some g)
    (generation : Nat) : f.wake generation = f := by
  unfold wake
  rw [h, Option.getD_some, ← h]

/-- The jobs of the entries that the log has got since. -/
def Scheduling.firedSince (old new : Scheduling) : List Nat :=
  (new.log.take (new.log.length - old.log.length)).filterMap Firing.job

/-- Both loops, with the scheduler's acknowledged passes, and what the worker's last claim to be
answered was made on. -/
structure IdleProcess where
  db : Scheduling
  wakeup : Wakeup
  outstanding : Nat
  scheduler : SchedulerPc
  worker : WorkerPc
  fired : List FiredPass
  claimed : Option (Jobs × Ctx)

inductive IdleAct where
  | scheduler (a : SchedulerAct)
  | worker (a : WorkerAct)

namespace IdleProcess

def start : IdleProcess := ⟨.start, .empty, 0, .test, .test, [], none⟩

/-- What the scheduler's loop works on. -/
def scheduling (s : IdleProcess) : IdleScheduler := ⟨s.db, s.wakeup, s.scheduler⟩

/-- What the worker's loop works on. -/
def working (s : IdleProcess) : IdleWorker := ⟨s.db.jobs, s.wakeup, s.outstanding, s.worker⟩

def firedAfter (s : IdleProcess) (a : SchedulerAct) (v : IdleScheduler) : List FiredPass :=
  match a with
  | .commit true => ⟨s.db.firedSince v.db, v.db.jobs, none⟩ :: s.fired
  | .notify =>
      if s.scheduler.fires then s.fired.map (FiredPass.wake v.wakeup.generation) else s.fired
  | _ => s.fired

def afterScheduler (s : IdleProcess) (a : SchedulerAct) (v : IdleScheduler) : IdleProcess :=
  { s with db := v.db, wakeup := v.wakeup, scheduler := v.pc, fired := s.firedAfter a v }

def afterWorker (s : IdleProcess) (a : WorkerAct) (v : IdleWorker) : IdleProcess :=
  { s with
    db := { s.db with jobs := v.jobs }
    wakeup := v.wakeup
    outstanding := v.outstanding
    worker := v.pc
    claimed := match a with
      | .claim ctx true => some (s.db.jobs, ctx)
      | _ => s.claimed }

end IdleProcess

section Step

variable (zones : ZoneInfo) (session : Zone) (names : Nat → String) (o : WorkerOptions)

inductive IdleStep : IdleProcess → IdleAct → IdleProcess → Prop where
  | scheduler {s : IdleProcess} {a : SchedulerAct} {v : IdleScheduler}
      (ha : SchedulerStep zones session names s.scheduling a v) :
      IdleStep s (.scheduler a) (s.afterScheduler a v)
  | worker {s : IdleProcess} {a : WorkerAct} {v : IdleWorker} (ha : WorkerStep o s.working a v) :
      IdleStep s (.worker a) (s.afterWorker a v)

def idleProcess : System IdleProcess IdleAct where
  init s := s = .start
  step := IdleStep zones session names o

end Step

variable {zones : ZoneInfo} {session : Zone} {names : Nat → String} {o : WorkerOptions}

/-! ## The generation -/

/-- What one step makes of it. -/
inductive Wakeup.Change : Wakeup → Wakeup → Prop where
  | same (e : Wakeup) : Change e e
  | publish (e : Wakeup) (p : Producer) : Change e (EventCount.publish e p)
  | wake {e : Wakeup} {p : Producer} (hp : p ∈ e.published) : Change e (EventCount.wake e p)
  | bump (e : Wakeup) : Change e (EventCount.bump e)

namespace Wakeup.Change

variable {e e' : Wakeup} {l : Look Producer}

theorem of_worker {s t : IdleWorker} {a : WorkerAct} (ha : WorkerStep o s a t) :
    Change s.wakeup t.wakeup := by
  cases ha with
  | bump => exact .bump _
  | commit | setStop => exact .publish _ _
  | announce hp => exact .wake hp
  | _ => exact .same _

theorem of_scheduler {s t : IdleScheduler} {a : SchedulerAct}
    (ha : SchedulerStep zones session names s a t) : Change s.wakeup t.wakeup := by
  cases ha with
  | @notify l fired =>
      cases fired with
      | true => exact .bump _
      | false => exact .same _
  | bump => exact .bump _
  | register | setStop => exact .publish _ _
  | announce hp => exact .wake hp
  | _ => exact .same _

theorem valid (h : Change e e') (he : e.Valid) : e'.Valid := by
  cases h with
  | same => exact he
  | publish p => exact he.publish p
  | wake hp => exact he.wake hp
  | bump => exact he.bump

theorem sound (h : Change e e') (hl : e.Sound l) : e'.Sound l := by
  cases h with
  | same => exact hl
  | publish p => exact hl.publish p
  | @wake p => exact hl.wake p
  | bump => exact hl.bump

theorem generation_le (h : Change e e') : e.generation ≤ e'.generation := by
  cases h with
  | same | publish => exact le_rfl
  | wake | bump => exact Nat.le_succ _

theorem stopSet (h : Change e e') (he : DurableQueue.stopSet e = true) :
    DurableQueue.stopSet e' = true := by
  cases h with
  | publish p => exact decide_eq_true (List.mem_cons_of_mem p (of_decide_eq_true he))
  | _ => exact he

end Wakeup.Change

/-! ## The jobs table -/

namespace Jobs

variable {t u v : Jobs}

/-- Calls lead from the one table to the other. -/
def Leads (t u : Jobs) : Prop := ∃ cs, u = runCalls t cs

theorem Leads.refl (t : Jobs) : t.Leads t := ⟨[], rfl⟩

theorem Leads.call (c : Call) : t.Leads (c.run t) := ⟨[c], rfl⟩

theorem Leads.trans (h : t.Leads u) (h' : u.Leads v) : t.Leads v := by
  obtain ⟨cs, rfl⟩ := h
  obtain ⟨cs', rfl⟩ := h'
  exact ⟨cs ++ cs', (runCalls_append t cs cs').symm⟩

theorem Leads.reachable (h : t.Leads u) (ht : jobCalls.Reachable t) : jobCalls.Reachable u := by
  obtain ⟨cs, rfl⟩ := h
  exact reachable_runCalls ht cs

theorem Leads.of_worker {s t : IdleWorker} {a : WorkerAct} (ha : WorkerStep o s a t) :
    s.jobs.Leads t.jobs := by
  cases ha with
  | @deadLetter l ctx batch => exact .call ⟨ctx, .deadLetterExpired batch⟩
  | @recover l ctx batch => exact .call ⟨ctx, .recoverExpired batch⟩
  | @claimed l room ctx | @claimedNone l room ctx | @claimedUnseen l room ctx =>
      exact .call ⟨ctx, .claimJobs o.workerId o.leaseSeconds (min room o.claimBatch)⟩
  | @commit n c | @call c => exact .call c
  | _ => exact .refl _

theorem Leads.finish (now : Int) (s : Scheduling) (h : Schedule × Decision) :
    s.jobs.Leads (Scheduling.finish now s h).jobs := by
  cases hkey : h.2.key with
  | none =>
      rw [(Scheduling.job_finish_none now s hkey).2]
      exact .refl _
  | some key =>
      unfold Scheduling.finish
      rw [hkey]
      exact .call ⟨.alone now, .enqueue h.1.task h.1.args (some key)⟩

theorem Leads.finishAll (now : Int) (l : List (Schedule × Decision)) (s : Scheduling) :
    s.jobs.Leads (l.foldl (Scheduling.finish now) s).jobs := by
  induction l generalizing s with
  | nil => exact .refl _
  | cons h l ih => exact (Leads.finish now s h).trans (ih _)

theorem Leads.of_scheduling {s t : Scheduling} {a : SchedulingAct}
    (ha : SchedulingStep zones session s a t) : s.jobs.Leads t.jobs := by
  cases ha with
  | @commit k p => exact Leads.finishAll p.now p.handled (s.setPass k none)
  | @call c => exact .call c
  | _ => exact .refl _

theorem Leads.of_scheduler {s t : IdleScheduler} {a : SchedulerAct}
    (ha : SchedulerStep zones session names s a t) : s.db.jobs.Leads t.db.jobs := by
  cases ha with
  | pass _ _ _ ha | commit _ _ ha | commitUnseen _ ha | register ha | other _ ha =>
      exact Leads.of_scheduling ha
  | _ => exact .refl _

end Jobs

/-! ## What a pass has fired -/

namespace Scheduling

variable {now : Int} {l : List (Schedule × Decision)}

-- The new entries of the log are those of the rows handled, each with its job, if it has one.
theorem log_finishAll (now : Int) (l : List (Schedule × Decision)) (s : Scheduling) :
    ∃ new, (l.foldl (finish now) s).log = new ++ s.log ∧
      (∀ f ∈ new, ∀ id, f.job = some id →
        ((l.foldl (finish now) s).jobs.row id).isSome = true ∧
          l.any (·.2.key.isSome) = true) := by
  induction l generalizing s with
  | nil => exact ⟨[], rfl, fun f hf ↦ absurd hf List.not_mem_nil⟩
  | cons h l ih =>
      obtain ⟨new, hlog, hnew⟩ := ih (finish now s h)
      have hany (hl : l.any (·.2.key.isSome) = true) :
          (h :: l).any (·.2.key.isSome) = true := by
        rw [List.any_cons, hl, Bool.or_true]
      cases hkey : h.2.key with
      | none =>
          refine ⟨new ++ [⟨h.1, now, h.2, none⟩], ?_, fun f hf id hid ↦ ?_⟩
          · rw [List.foldl_cons, hlog, (job_finish_none now s hkey).1, List.append_assoc]
            rfl
          · rcases List.mem_append.mp hf with hf | hf
            · exact ⟨(hnew f hf id hid).1, hany (hnew f hf id hid).2⟩
            · rw [List.mem_singleton.mp hf] at hid
              cases hid
      | some key =>
          obtain ⟨id', r, hlog', hr, -⟩ := job_finish now s hkey
          refine ⟨new ++ [⟨h.1, now, h.2, some id'⟩], ?_, fun f hf id hid ↦ ?_⟩
          · rw [List.foldl_cons, hlog, hlog', List.append_assoc]
            rfl
          · rcases List.mem_append.mp hf with hf | hf
            · exact ⟨(hnew f hf id hid).1, hany (hnew f hf id hid).2⟩
            · rw [List.mem_singleton.mp hf] at hid
              obtain rfl := Option.some.inj hid
              rw [List.foldl_cons, job_finishAll_of_some (l := l) hr, List.any_cons, hkey]
              exact ⟨rfl, rfl⟩

-- What a commit has fired is in the table, and the loop has counted it.
theorem firedSince_commit {s t : Scheduling} {k : Nat} {p : Pass} (hp : s.passes k = some p)
    (ha : SchedulingStep zones session s (.commit k) t) :
    ∀ id ∈ s.firedSince t, (t.jobs.row id).isSome = true ∧
      p.handled.any (·.2.key.isSome) = true := by
  cases ha with
  | @commit k q hq hdone =>
      obtain rfl := Option.some.inj (hq.symm.trans hp)
      obtain ⟨new, hlog, hnew⟩ := log_finishAll q.now q.handled (s.setPass k none)
      intro id hid
      obtain ⟨f, hf, hjob⟩ := List.mem_filterMap.mp hid
      have hlen : s.log.length = (s.setPass k none).log.length := rfl
      rw [hlog, hlen, List.length_append, Nat.add_sub_cancel, List.take_left] at hf
      exact hnew f hf id hjob

end Scheduling

/-! ## What the worker knows -/

/-- The room that a claim is made for. -/
def WorkerPc.Roomy (wakeup : Wakeup) : WorkerPc → Prop
  | testAgain _ room => stopSet wakeup = false → 0 < room
  | claim _ room => 0 < room
  | _ => True

namespace IdleProcess

variable {s t : IdleProcess}

/-- The last claim, after the look `l` and before the table was `u`, has found nothing, and it was
made after each pass whose `wake()` the look has counted. -/
def Looked (s : IdleProcess) (l : Look Producer) (u : Jobs) : Prop :=
  ∃ t ctx, s.claimed = some (t, ctx) ∧ ctx.FindsNothing t ∧ t.Leads u ∧
    ∀ f ∈ s.fired, ∀ g, f.woken = some g → g ≤ l.seen → f.table.Leads t

def Informed (s : IdleProcess) : WorkerPc → Prop
  | .due l _ => s.Looked l s.db.jobs
  | .wait sleep => s.Looked sleep.look sleep.table
  | _ => True

structure Inv (s : IdleProcess) : Prop where
  working : s.working.Inv
  jobs : ∀ f ∈ s.fired, ∀ id ∈ f.jobs, (f.table.row id).isSome = true
  leads : ∀ f ∈ s.fired, f.table.Leads s.db.jobs
  woken : ∀ f ∈ s.fired, ∀ g, f.woken = some g → g ≤ s.wakeup.generation
  owed : ∀ f ∈ s.fired, f.woken = none → f.jobs = [] ∨ s.scheduler.fires = true
  roomy : s.worker.Roomy s.wakeup
  informed : s.Informed s.worker

theorem Looked.mono {l : Look Producer} {u u' : Jobs} (h : s.Looked l u)
    (hclaimed : t.claimed = s.claimed) (hu : u.Leads u')
    (hfired : ∀ f ∈ t.fired, ∀ g, f.woken = some g → g ≤ l.seen → f ∈ s.fired) :
    t.Looked l u' := by
  obtain ⟨x, ctx, hx, hnothing, hlead, hafter⟩ := h
  exact ⟨x, ctx, hclaimed.trans hx, hnothing, hlead.trans hu,
    fun f hf g hg hle ↦ hafter f (hfired f hf g hg hle) g hg hle⟩

theorem Informed.mono {pc : WorkerPc} (h : s.Informed pc)
    (hsound : pc.Informed s.wakeup) (hclaimed : t.claimed = s.claimed)
    (hjobs : s.db.jobs.Leads t.db.jobs)
    (hfired : ∀ f ∈ t.fired, ∀ g, f.woken = some g → g ≤ s.wakeup.generation → f ∈ s.fired) :
    t.Informed pc := by
  cases pc with
  | due l saw =>
      exact Looked.mono h hclaimed hjobs fun f hf g hg hle ↦
        hfired f hf g hg (hle.trans hsound.1.le)
  | wait sleep =>
      exact Looked.mono h hclaimed (.refl _) fun f hf g hg hle ↦
        hfired f hf g hg (hle.trans hsound.1.le)
  | _ => trivial

theorem roomy_mono {pc : WorkerPc} {e e' : Wakeup} (h : pc.Roomy e) (he : e.Change e') :
    pc.Roomy e' := by
  cases pc with
  | testAgain l room =>
      intro hstop
      refine h (Bool.eq_false_iff.mpr fun hset ↦ ?_)
      exact Bool.false_ne_true (hstop.symm.trans (he.stopSet hset))
  | _ => exact h

/-! ## The worker's steps -/

theorem Inv.worker {a : WorkerAct} {v : IdleWorker} (h : s.Inv) (hbatch : 0 < o.claimBatch)
    (ha : WorkerStep o s.working a v) : (s.afterWorker a v).Inv := by
  have hchange := Wakeup.Change.of_worker ha
  have hlead : s.db.jobs.Leads v.jobs := .of_worker ha
  have hworking : (s.afterWorker a v).working.Inv := h.working.step ha
  refine ⟨hworking, h.jobs, fun f hf ↦ (h.leads f hf).trans hlead,
    fun f hf g hg ↦ (h.woken f hf g hg).trans hchange.generation_le, h.owed, ?_, ?_⟩
  · have hroomy := h.roomy
    cases ha with
    | @capacity l hpc hroom =>
        intro hstop
        have hroom := hroom.resolve_right fun hset ↦ Bool.false_ne_true (hstop.symm.trans hset)
        exact Nat.sub_pos_of_lt hroom
    | goAgain hpc hstop =>
        have hpc : s.worker = _ := hpc
        rw [hpc] at hroomy
        exact hroomy hstop
    | bump | commit | announce | setStop | call | finished => exact roomy_mono hroomy hchange
    | _ => trivial
  · have hinf := h.informed
    have hroomy := h.roomy
    have hkeep (hclaimed : (s.afterWorker a v).claimed = s.claimed) :
        (s.afterWorker a v).Informed s.worker :=
      hinf.mono h.working.informed hclaimed hlead fun f hf _ _ _ ↦ hf
    cases ha with
    | @claimedNone l room ctx hpc hnone =>
        have hpc : s.worker = _ := hpc
        rw [hpc] at hroomy
        refine ⟨s.db.jobs, ctx, rfl, Jobs.findsNothing (lt_min hroomy hbatch) hnone, hlead,
          fun f hf g hg hle ↦ h.leads f hf⟩
    | @due l saw now hpc =>
        have hpc : s.worker = _ := hpc
        rw [hpc] at hinf
        exact hinf
    | bump | commit | announce | setStop | call | finished => exact hkeep rfl
    | _ => trivial

/-! ## The scheduler's steps -/

-- The passes known as woken are those there were, and those that this `wake()` is for.
theorem mem_firedAfter {a : SchedulerAct} {v : IdleScheduler} {f : FiredPass}
    (ha : SchedulerStep zones session names s.scheduling a v) (hf : f ∈ s.firedAfter a v) :
    (f ∈ s.fired ∧ (a = .notify → s.scheduler.fires = false)) ∨
      (f.woken = none ∧ f.table = v.db.jobs ∧ (∀ id ∈ f.jobs, (v.db.jobs.row id).isSome = true) ∧
        (f.jobs ≠ [] → v.pc.fires = true)) ∨
      (v.wakeup.generation = s.wakeup.generation + 1 ∧
        ∃ f₀ ∈ s.fired, f = f₀.wake v.wakeup.generation) := by
  cases ha with
  | @commit l p db hpc hp ha =>
      rcases List.mem_cons.mp hf with rfl | hold
      · have hfired := Scheduling.firedSince_commit hp ha
        refine Or.inr (Or.inl ⟨rfl, rfl, fun id hid ↦ (hfired id hid).1, fun hne ↦ ?_⟩)
        obtain ⟨id, hid⟩ := List.exists_mem_of_ne_nil _ hne
        exact (hfired id hid).2
      · exact Or.inl ⟨hold, fun hnotify ↦ by cases hnotify⟩
  | @notify l fired hpc =>
      have hpc : s.scheduler = _ := hpc
      unfold firedAfter at hf
      rw [hpc] at hf ⊢
      cases fired with
      | true =>
          obtain ⟨f₀, hf₀, rfl⟩ := List.mem_map.mp hf
          exact Or.inr (Or.inr ⟨rfl, f₀, hf₀, rfl⟩)
      | false => exact Or.inl ⟨hf, fun _ ↦ rfl⟩
  | _ => exact Or.inl ⟨hf, fun hnotify ↦ by cases hnotify⟩

-- What is owed stays owed until the `wake()`.
theorem fires_of_step {a : SchedulerAct} {v : IdleScheduler}
    (ha : SchedulerStep zones session names s.scheduling a v) (hfires : s.scheduler.fires = true) :
    a = .notify ∨ v.pc.fires = true := by
  have hne {pc : SchedulerPc} (hpc : s.scheduling.pc = pc) (hnot : pc.fires = false) : False := by
    have hpc : s.scheduler = pc := hpc
    rw [hpc, hnot] at hfires
    cases hfires
  cases ha with
  | notify => exact Or.inl rfl
  | stop hpc | go hpc | current hpc | pass hpc | commit hpc | commitUnseen hpc | query hpc
  | wake hpc | resume hpc => exact (hne hpc rfl).elim
  | loseConnection hguarded =>
      have hguarded : s.scheduler.guarded = true := hguarded
      generalize hpc : s.scheduler = pc at hfires hguarded
      cases pc with
      | notify => cases hguarded
      | _ => cases hfires
  | _ => exact Or.inr hfires

theorem Inv.scheduler {a : SchedulerAct} {v : IdleScheduler} (h : s.Inv)
    (ha : SchedulerStep zones session names s.scheduling a v) : (s.afterScheduler a v).Inv := by
  have hchange := Wakeup.Change.of_scheduler ha
  have hlead : s.db.jobs.Leads v.db.jobs := .of_scheduler ha
  obtain ⟨hvalid, hreach, hsound⟩ := h.working
  refine ⟨⟨hchange.valid hvalid, hlead.reachable hreach, hsound.mono fun _ ↦ hchange.sound⟩,
    fun f hf ↦ ?_, fun f hf ↦ ?_, fun f hf g hg ↦ ?_, fun f hf hnone ↦ ?_,
    roomy_mono h.roomy hchange, h.informed.mono hsound rfl hlead fun f hf g hg hle ↦ ?_⟩
  · rcases mem_firedAfter ha hf with ⟨hold, -⟩ | ⟨-, htable, hjobs, -⟩ | ⟨-, f₀, hf₀, rfl⟩
    · exact h.jobs f hold
    · rw [htable]
      exact hjobs
    · exact h.jobs f₀ hf₀
  · rcases mem_firedAfter ha hf with ⟨hold, -⟩ | ⟨-, htable, -⟩ | ⟨-, f₀, hf₀, rfl⟩
    · exact (h.leads f hold).trans hlead
    · rw [htable]
      exact .refl _
    · exact (h.leads f₀ hf₀).trans hlead
  · rcases mem_firedAfter ha hf with ⟨hold, -⟩ | ⟨hnone, -⟩ | ⟨-, f₀, hf₀, rfl⟩
    · exact (h.woken f hold g hg).trans hchange.generation_le
    · cases hnone.symm.trans hg
    · obtain rfl := Option.some.inj hg
      cases hwoken : f₀.woken with
      | none => exact le_rfl
      | some g => exact (h.woken f₀ hf₀ g hwoken).trans hchange.generation_le
  · rcases mem_firedAfter ha hf with ⟨hold, hnot⟩ | ⟨-, -, -, hfires⟩ | ⟨-, f₀, hf₀, rfl⟩
    · refine (h.owed f hold hnone).imp_right fun hfires ↦ ?_
      refine (fires_of_step ha hfires).resolve_left fun hnotify ↦ ?_
      exact Bool.false_ne_true ((hnot hnotify).symm.trans hfires)
    · exact or_iff_not_imp_left.mpr hfires
    · cases hnone
  · rcases mem_firedAfter ha hf with ⟨hold, -⟩ | ⟨hnone, -⟩ | ⟨hgen, f₀, hf₀, rfl⟩
    · exact hold
    · cases hnone.symm.trans hg
    · cases hwoken : f₀.woken with
      | some g₀ => rwa [FiredPass.wake_of_some hwoken]
      | none =>
          -- it has just been woken, after the look
          unfold FiredPass.wake at hg
          rw [hwoken, Option.getD_none] at hg
          obtain rfl := Option.some.inj hg
          exact absurd hle (hgen ▸ Nat.not_succ_le_self _)

theorem inv_of_reachable (hbatch : 0 < o.claimBatch)
    (h : (idleProcess zones session names o).Reachable s) : s.Inv := by
  apply h.invariant
  · rintro s rfl
    exact ⟨⟨fun p hp ↦ absurd hp List.not_mem_nil, .init rfl, trivial⟩,
      fun f hf ↦ absurd hf List.not_mem_nil, fun f hf ↦ absurd hf List.not_mem_nil,
      fun f hf ↦ absurd hf List.not_mem_nil, fun f hf ↦ absurd hf List.not_mem_nil, trivial,
      trivial⟩
  · intro s a t hs ha
    cases ha with
    | scheduler ha => exact hs.scheduler ha
    | worker ha => exact hs.worker hbatch ha

end IdleProcess

/-- While the worker of a process sleeps and has not been woken, its scheduler has fired nothing
behind its back: each job of a pass whose commit was acknowledged was in the table before the
worker's last claim, which found nothing that it could take, and the timeout, which is from a look
at a later table, takes into account whatever was left to be done there. -/
theorem idle_worker_sees_fired {s : IdleProcess} {sleep : Sleep}
    (h : (idleProcess zones session names o).Reachable s) (hbatch : 0 < o.claimBatch)
    (hpc : s.worker = .wait sleep) (hseen : s.wakeup.generation = sleep.look.seen)
    (hfires : s.scheduler.fires = false) :
    Producer.stopper ∉ s.wakeup.woken ∧
    ∃ t ctx, s.claimed = some (t, ctx) ∧ ctx.FindsNothing t ∧ t.Leads sleep.table ∧
      (∀ f ∈ s.fired, ∀ id ∈ f.jobs, f.table.Leads t ∧ ∃ r, f.table.row id = some r ∧
        ((∃ r', sleep.table.row id = some r' ∧ r'.request = r.request) ∨
          ∃ u r', f.table.Leads u ∧ u.Leads sleep.table ∧ u.row id = some r' ∧
            r'.request = r.request ∧ r'.Finished)) ∧
      ∀ r ∈ sleep.table.rows, ∀ m, r.wanting m → ∃ timeout, sleep.timeout = some timeout ∧
        timeout ≤ max MIN_SLEEP (m - sleep.now) := by
  have hinv := IdleProcess.inv_of_reachable hbatch h
  have hsleep := hinv.working.informed
  have hinf := hinv.informed
  change s.worker.Informed s.wakeup at hsleep
  rw [hpc] at hsleep hinf
  obtain ⟨hsound, hstop, -, -, hreach, htimeout⟩ := hsleep
  obtain ⟨t, ctx, hclaimed, hnothing, hlead, hafter⟩ := hinf
  refine ⟨fun hmem ↦ hstop (hsound.fresh hseen _ hmem), t, ctx, hclaimed, hnothing, hlead,
    fun f hf id hid ↦ ?_, fun r hr m hm ↦ ?_⟩
  · -- it has been woken for, and the look has counted that
    have hbefore : f.table.Leads t := by
      cases hwoken : f.woken with
      | none =>
          rcases hinv.owed f hf hwoken with hnil | hfires'
          · rw [hnil] at hid
            cases hid
          · cases hfires.symm.trans hfires'
      | some g => exact hafter f hf g hwoken (hseen ▸ hinv.woken f hf g hwoken)
    obtain ⟨r, hr⟩ := Option.isSome_iff_exists.mp (hinv.jobs f hf id hid)
    refine ⟨hbefore, r, hr, ?_⟩
    obtain ⟨cs, hcs⟩ := hbefore.trans hlead
    rw [hcs]
    rcases runCalls_kept hr cs with hkept | ⟨cs₁, cs₂, r', rfl, hr', hsame, hfin⟩
    · exact Or.inl hkept
    · exact Or.inr ⟨_, r', ⟨cs₁, rfl⟩, ⟨cs₂, runCalls_append _ _ _⟩, hr', hsame, hfin⟩
  · have hwants : ∃ d, sleep.table.secondsUntilDue sleep.now = some d := by
      refine Option.ne_none_iff_exists'.mp fun hnone ↦ ?_
      obtain ⟨hpending, hrunning⟩ := Jobs.secondsUntilDue_none hreach hnone r hr
      rcases hm with hdue | ⟨hs, -⟩
      · exact hpending (Job.due_iff.mp hdue).1
      · exact hrunning hs
    obtain ⟨d, hd⟩ := hwants
    have hle := (Jobs.secondsUntilDue_isLeast hd).2 ⟨r, hr, hm⟩
    refine ⟨max d MIN_SLEEP, ?_, ?_⟩
    · rw [htimeout, hd]
      rfl
    · rw [max_comm]
      exact max_le_max_left _ (by omega)

/-! ## A digest is fired -/

/-- One worker, one schedule. -/
def digestProcess : System IdleProcess IdleAct :=
  idleProcess (fun _ ↦ none) Schedule.utc (fun _ ↦ "digest") ⟨"w", 30, 10, 1⟩

def digestRegistered : Scheduling :=
  Scheduling.start.setSchedule (Schedules.empty.upsert firstDigest) "digest"

def digestHandled : Scheduling :=
  ((digestRegistered.setPass ownPass (some ⟨3600000000, [], []⟩)).setPass ownPass
    (some ⟨3600000000, [firstDigest], []⟩)).setPass ownPass (some ⟨3600000000, [],
      [(firstDigest, ⟨3600000000, some (slotKey "digest" 3600000000), 7200000000⟩)]⟩)

def registersDigest : List IdleAct :=
  [.scheduler (.register 0
      (.register 0 "digest" "send_digest" "{}" (.interval 3600) (some 3600000000) none)),
    .scheduler (.announce (.change 0))]

def handlesDigest : List IdleAct :=
  [.scheduler .test, .scheduler .current, .scheduler (.pass (.begin ownPass 3600000000)),
    .scheduler (.pass (.lock ownPass firstDigest)), .scheduler (.pass (.handle ownPass))]

theorem run_registersDigest :
    digestProcess.Run .start registersDigest
      ⟨digestRegistered, ⟨1, [.change 0], [.change 0]⟩, 0, .test, .test, [], none⟩ := by
  have hfree : ¬ Scheduling.start.Locked "digest" := by
    rintro ⟨k, p, hp, -⟩
    cases hp
  exact .cons (.scheduler (.register (.register hfree rfl))) <|
    .cons (.scheduler (.announce (by decide))) <| .nil _

theorem run_handlesDigest {s : IdleProcess} (hdb : s.db = digestRegistered)
    (hpc : s.scheduler = .test) (hstop : stopSet s.wakeup = false) :
    digestProcess.Run s handlesDigest
      { s with db := digestHandled, scheduler := .pass s.wakeup.look } := by
  obtain ⟨db, wakeup, outstanding, scheduler, worker, fired, claimed⟩ := s
  obtain rfl : db = digestRegistered := hdb
  obtain rfl : scheduler = .test := hpc
  -- the pass itself has locked nothing yet
  have hfree : ¬ (digestRegistered.setPass ownPass (some ⟨3600000000, [], []⟩)).Locked
      "digest" := by
    rintro ⟨k, p, hp, hmem⟩
    by_cases hk : k = ownPass
    · rw [hk, Scheduling.passes_setPass_self, Option.some.injEq] at hp
      rw [← hp] at hmem
      exact absurd hmem List.not_mem_nil
    · have hold : Function.update digestRegistered.passes ownPass (some ⟨3600000000, [], []⟩) k =
        some p := hp
      rw [Function.update_of_ne hk] at hold
      cases hold
  exact .cons (.scheduler (.go rfl hstop)) <| .cons (.scheduler (.current rfl)) <|
    .cons (.scheduler (.pass rfl rfl (fun h ↦ by cases h) (.begin rfl))) <|
    .cons (.scheduler (.pass rfl rfl (fun h ↦ by cases h) (.lock rfl rfl (by decide) hfree))) <|
    .cons (.scheduler (.pass rfl rfl (fun h ↦ by cases h) (.handle rfl rfl rfl))) <| .nil _

-- Another transaction has the job locked when the worker, woken, looks for it.
theorem idle_worker_sees_fired_locked :
    ∃ s sleep t ctx, digestProcess.Reachable s ∧ s.worker = .wait sleep ∧
      s.claimed = some (t, ctx) ∧ ctx.FindsNothing t ∧ sleep.timeout = some MIN_SLEEP ∧
      ∃ f ∈ s.fired, f.jobs = [1] ∧ f.table.Leads t := by
  have hhandled := (run_registersDigest.trans (run_handlesDigest rfl rfl rfl)).reachable (.init rfl)
  have hrun : ∃ as s sleep, digestProcess.Run
      ⟨digestHandled, ⟨1, [.change 0], [.change 0]⟩, 0, .pass ⟨1, [.change 0]⟩, .test, [], none⟩
      as s ∧ s.worker = .wait sleep ∧ s.wakeup.generation = sleep.look.seen ∧
      s.scheduler.fires = false ∧ sleep.timeout = some MIN_SLEEP ∧
      ∃ f ∈ s.fired, f.jobs = [1] :=
    ⟨_, _, _, .cons (.scheduler (.commit rfl rfl (.commit rfl rfl))) <|
      .cons (.scheduler (.notify rfl)) <|
      .cons (.worker (.go rfl rfl)) <| .cons (.worker (.current rfl)) <|
      .cons (.worker (.skipSweep rfl)) <| .cons (.worker (.capacity rfl (Or.inl (by decide)))) <|
      .cons (.worker (.goAgain rfl rfl)) <|
      .cons (.worker (@WorkerStep.claimedNone _ _ _ _ ⟨3600000000, fun _ ↦ true, id⟩ rfl rfl)) <|
      .cons (.worker (@WorkerStep.due _ _ _ _ 3600000000 rfl)) <| .nil _, rfl, rfl, rfl, rfl,
      _, List.mem_cons_self, rfl⟩
  obtain ⟨as, s, sleep, hrun, hpc, hseen, hfires, htimeout, f, hf, hjobs⟩ := hrun
  have hs := hrun.reachable hhandled
  obtain ⟨-, t, ctx, hclaimed, hnothing, -, hfired, -⟩ :=
    idle_worker_sees_fired hs (by decide) hpc hseen hfires
  exact ⟨s, sleep, t, ctx, hs, hpc, hclaimed, hnothing, htimeout, f, hf, hjobs,
    (hfired f hf 1 (hjobs ▸ List.mem_singleton_self 1)).1⟩

/-- The commit of the pass is done and its reply is lost.  The scheduler's next pass finds nothing
due, calls no `wake()` and goes to sleep as well, and the job waits. -/
theorem idle_worker_sleeps_through_lost_reply :
    ∃ s sleep, digestProcess.Reachable s ∧ s.worker = .wait sleep ∧
      s.wakeup.generation = sleep.look.seen ∧ sleep.timeout = none ∧
      (∃ idle, s.scheduler = .wait idle ∧ s.wakeup.generation = idle.look.seen) ∧
      ∃ r, s.db.jobs.row 1 = some r ∧ r.due 3600000000 = true := by
  have hasleep : ∃ as s sleep, digestProcess.Run .start as s ∧ s.db = digestRegistered ∧
      s.scheduler = .test ∧ stopSet s.wakeup = false ∧ s.wakeup.generation = 1 ∧
      s.worker = .wait sleep ∧ sleep.look.seen = 1 ∧ sleep.timeout = none :=
    ⟨_, _, _, run_registersDigest.trans <|
      .cons (.worker (.go rfl rfl)) <| .cons (.worker (.current rfl)) <|
      .cons (.worker (.skipSweep rfl)) <| .cons (.worker (.capacity rfl (Or.inl (by decide)))) <|
      .cons (.worker (.goAgain rfl rfl)) <|
      .cons (.worker (@WorkerStep.claimedNone _ _ _ _ (.alone 0) rfl rfl)) <|
      .cons (.worker (@WorkerStep.due _ _ _ _ 0 rfl)) <| .nil _, rfl, rfl, rfl, rfl, rfl, rfl, rfl⟩
  obtain ⟨as, s, sleep, hrun, hdb, hsched, hstop, hgen, hpc, hseen, htimeout⟩ := hasleep
  have hhandled := (hrun.trans (run_handlesDigest hdb hsched hstop)).reachable (.init rfl)
  have hlost : ∃ as t, digestProcess.Run
      { s with db := digestHandled, scheduler := .pass s.wakeup.look } as t ∧
      t.worker = s.worker ∧ t.wakeup = s.wakeup ∧
      (∃ idle, t.scheduler = .wait idle ∧ idle.look.seen = s.wakeup.generation) ∧
      ∃ r, t.db.jobs.row 1 = some r ∧ r.due 3600000000 = true :=
    ⟨_, _, .cons (.scheduler (.commitUnseen rfl (.commit rfl rfl))) <|
      .cons (.scheduler (.resume rfl)) <| .cons (.scheduler (.go rfl hstop)) <|
      .cons (.scheduler (.current rfl)) <|
      .cons (.scheduler (.pass rfl rfl (fun h ↦ by cases h)
        (@SchedulingStep.begin _ _ _ ownPass 3600000001 rfl))) <|
      .cons (.scheduler (.commit rfl rfl (.commit rfl rfl))) <|
      .cons (.scheduler (.notify rfl)) <|
      .cons (.scheduler (@SchedulerStep.query _ _ _ _ _ 3600000001 rfl)) <| .nil _,
      rfl, rfl, ⟨_, rfl, rfl⟩, _, rfl, rfl⟩
  obtain ⟨as', t, hrun', hworker, hwakeup, ⟨idle, hidle, hlook⟩, r, hr, hdue⟩ := hlost
  refine ⟨t, sleep, hrun'.reachable hhandled, hworker.trans hpc, ?_, htimeout, ⟨idle, hidle, ?_⟩,
    r, hr, hdue⟩
  · rw [hwakeup, hgen, hseen]
  · rw [hwakeup, hlook]

end DurableQueue
