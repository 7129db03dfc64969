import DurableQueue.Jobs.History

/-!
# The bound on recoveries

The second UPDATE of a sweep gives back whatever lease has run out, also one of a job that the
first UPDATE should have buried and did not see.  The bound on recoveries holds as long as the
first UPDATE sees every such job: its clock is late enough, it has room, and the row is free.
-/

open Reasoning

namespace DurableQueue

/-- A row that has not been recovered more often than it may. -/
structure Job.Bounded (r : Job) : Prop where
  positive : 1 ≤ r.maxRecoveries
  recoveries_le : (r.recoveries : Int) ≤ r.maxRecoveries
  recoveries_lt : r.status = .pending ∨ r.status = .running →
    (r.recoveries : Int) < r.maxRecoveries

def unrecovered (t : Jobs) : Prop := ∀ r ∈ t.rows, 1 ≤ r.maxRecoveries ∧ r.recoveries = 0

/-- What the second UPDATE of a sweep picks is no poison pill. -/
def sparesPoison (t : Jobs) (c : Call) : Prop :=
  match c.op with
  | .recoverExpired batch => ∀ r ∈ t.recoverable c.toCtx batch, r.poisoned = false
  | _ => True

/-- The calls on a table of unrecovered jobs. -/
def jobSweeps : System Jobs Call := jobCallsFrom unrecovered

theorem Job.poisoned_iff {r : Job} :
    r.poisoned = true ↔ r.maxRecoveries ≤ (r.recoveries : Int) + 1 := by
  simp only [Job.poisoned, decide_eq_true_eq]

/-- What a sweep writes into `recoveries` is in the column's range. -/
theorem Job.Bounded.fitsInt_recoveries {r : Job} {now : Int} (h : r.Bounded) (hexp : r.expired now)
    (hmax : fitsInt r.maxRecoveries) : fitsInt (r.recoveries + 1) := by
  have hlt := h.recoveries_lt (Or.inr (Job.expired_iff.mp hexp).1)
  have hle := (of_decide_eq_true hmax).2
  exact decide_eq_true ⟨by omega, by omega⟩

/-! ## What one call keeps -/

theorem RowChange.bounded {c : Call} {o o' : Option Job} (h : RowChange c o o')
    (hspare : ∀ r batch, o = some r → c.op = .recoverExpired batch →
      o' = some (SetClause.recover r) → r.expired c.now → r.poisoned = false)
    (ho : ∀ r, o = some r → r.Bounded) : ∀ r', o' = some r' → r'.Bounded := by
  intro r' hr'
  have hold {r : Job} {w : WorkerId} (hb : r.Bounded) (hw : r.heldBy w) :
      (r.recoveries : Int) < r.maxRecoveries :=
    hb.recoveries_lt (Or.inr (Job.heldBy_iff.mp hw).2)
  cases h with
  | same => exact ho r' hr'
  | inserted =>
      cases hr'
      exact ⟨show (1 : Int) ≤ 10 by omega, show ((0 : Nat) : Int) ≤ 10 by omega,
        fun _ ↦ show ((0 : Nat) : Int) < 10 by omega⟩
  | @claimed r w lease batch hop hdue hfree =>
      cases hr'
      have hb := ho r rfl
      exact ⟨hb.positive, hb.recoveries_le,
        fun _ ↦ hb.recoveries_lt (Or.inl (Job.due_iff.mp hdue).1)⟩
  | @extended r w lease hop hheld =>
      cases hr'
      have hb := ho r rfl
      have hlt := hold hb hheld
      exact ⟨hb.positive, hb.recoveries_le, fun _ ↦ hlt⟩
  | @deadLettered r batch hop hexp hpoison hfree =>
      cases hr'
      have hb := ho r rfl
      have hlt := hb.recoveries_lt (Or.inr (Job.expired_iff.mp hexp).1)
      refine ⟨hb.positive, show ((r.recoveries + 1 : Nat) : Int) ≤ r.maxRecoveries by omega, ?_⟩
      rintro (hs | hs) <;> cases hs
  | @recovered r batch hop hexp hfree =>
      cases hr'
      have hb := ho r rfl
      have hsafe := hspare r batch rfl hop rfl hexp
      have hlt : (r.recoveries : Int) + 1 < r.maxRecoveries := by
        rw [← Bool.not_eq_true, Job.poisoned_iff] at hsafe
        omega
      exact ⟨hb.positive, show ((r.recoveries + 1 : Nat) : Int) ≤ r.maxRecoveries by omega,
        fun _ ↦ show ((r.recoveries + 1 : Nat) : Int) < r.maxRecoveries by omega⟩
  | @released r ids w hop hmem hheld =>
      cases hr'
      have hb := ho r rfl
      have hlt := hold hb hheld
      exact ⟨hb.positive, hb.recoveries_le, fun _ ↦ hlt⟩
  | @succeeded r w hop hheld =>
      cases hr'
      have hb := ho r rfl
      have hlt := hold hb hheld
      exact ⟨hb.positive, hb.recoveries_le, fun _ ↦ hlt⟩
  | @failed r _ w error permanent maxAttempts draw hop hheld hfail =>
      obtain rfl := Option.some.inj hr'
      have hb := ho r rfl
      have hlt := hold hb hheld
      rcases Job.failed_cases hfail with ⟨rfl, -⟩ | ⟨delay, -, rfl, -⟩
      · exact ⟨hb.positive, hb.recoveries_le, fun _ ↦ hlt⟩
      · exact ⟨hb.positive, hb.recoveries_le, fun _ ↦ hlt⟩
  | @retried r hop hdead =>
      cases hr'
      have hpos := (ho r rfl).positive
      exact ⟨hpos, show ((0 : Nat) : Int) ≤ r.maxRecoveries by omega,
        fun _ ↦ show ((0 : Nat) : Int) < r.maxRecoveries by omega⟩
  | purged => cases hr'

-- The step that `sparesPoison` is there for: a row the second UPDATE writes is one it picked.
theorem Call.bounded {t : Jobs} {c : Call} (hc : sparesPoison t c)
    (ht : ∀ id r, t.row id = some r → r.Bounded) :
    ∀ id r, (c.run t).row id = some r → r.Bounded := by
  intro id
  apply (c.run_row t id).bounded _ (ht id)
  intro r batch hr hop hr' hexp
  obtain ⟨ctx, op⟩ := c
  obtain rfl : op = .recoverExpired batch := hop
  rcases Jobs.row_recoverExpired t id ctx batch with hsame | ⟨x, hx, hxr, -⟩
  · -- an unchanged row is not a recovered one
    have hself : some r = some (SetClause.recover r) := by
      rw [← hr, ← hr']
      exact hsame.symm
    have hcount : r.recoveries = r.recoveries + 1 :=
      congrArg Job.recoveries (Option.some.inj hself)
    omega
  · obtain rfl := Option.some.inj (hr.symm.trans hxr)
    exact hc r hx

theorem jobSweeps_bounded {t : Jobs} (h : (jobSweeps.restrict sparesPoison).Reachable t) :
    ∀ id r, t.row id = some r → r.Bounded := by
  apply h.invariant
  · intro t hinit id r hr
    have hr0 := hinit r (Jobs.row_mem hr)
    exact ⟨hr0.1, by omega, fun _ ↦ by omega⟩
  · intro t c u ht hstep
    rw [show u = c.run t from hstep.2]
    exact Call.bounded hstep.1 ht

/-! ## Sweeps -/

/-- A sweep between its two UPDATEs: what the first one met, and the jobs whose rows others have
written since. -/
structure Sweep where
  met : Jobs
  first : Ctx
  batch : Nat
  written : Nat → Bool

/-- The jobs table, and the sweep that each connection has begun. -/
structure Sweeping where
  jobs : Jobs
  sweeps : Nat → Option Sweep

/-- The two UPDATEs of `reap_expired_jobs` on connection `k`, and whatever else is called. -/
inductive SweepAct where
  | first (k : Nat) (ctx : Ctx) (batch : Nat)
  | second (k : Nat) (ctx : Ctx) (batch : Nat)
  | call (c : Call)

def SweepAct.toCall : SweepAct → Call
  | .first _ ctx batch => ⟨ctx, .deadLetterExpired batch⟩
  | .second _ ctx batch => ⟨ctx, .recoverExpired batch⟩
  | .call c => c

namespace Sweeping

-- A sweep whose second UPDATE never comes is given up when its connection begins another.
def enabled (s : Sweeping) : SweepAct → Prop
  | .first .. => True
  | .second k _ batch => (s.sweeps k).map Sweep.batch = some batch
  | .call c => c.op.isSweep = false

/-- The table becomes `u`, and open sweeps take note of what that has changed. -/
def commit (s : Sweeping) (u : Jobs) : Sweeping where
  jobs := u
  sweeps k := (s.sweeps k).map fun sweep ↦
    { sweep with written := fun id ↦ sweep.written id || decide (s.jobs.row id ≠ u.row id) }

def next (s : Sweeping) (a : SweepAct) : Sweeping :=
  let s' := s.commit (a.toCall.run s.jobs)
  match a with
  | .first k ctx batch =>
      { s' with sweeps := Function.update s'.sweeps k (some ⟨s.jobs, ctx, batch, fun _ ↦ false⟩) }
  | .second k _ _ => { s' with sweeps := Function.update s'.sweeps k none }
  | .call _ => s'

theorem jobs_next (s : Sweeping) (a : SweepAct) : (s.next a).jobs = a.toCall.run s.jobs := by
  cases a <;> rfl

def start (t : Jobs) : Sweeping := ⟨t, fun _ ↦ none⟩

end Sweeping

/-- Sweeps on a table of unrecovered jobs. -/
def sweeping : System Sweeping SweepAct :=
  .guarded (fun s ↦ ∃ t, unrecovered t ∧ s = .start t) Sweeping.enabled Sweeping.next

/-- What a step shows at `id`. -/
def sweepChangesOf (id : Nat) (s : Sweeping) (a : SweepAct) (s' : Sweeping) : List Event :=
  changesOf id s.jobs a.toCall s'.jobs

/-- How the first UPDATE has to have gone for the second one, in `t`.  A poison pill whose lease has
run out by the second one's clock, and which is free for it, had run out by the first one's clock
too, was free and had room in its batch; and a lease that one has got since lasts longer. -/
structure Sweep.Catches (sweep : Sweep) (t : Jobs) (second : Ctx) : Prop where
  met : ∀ r ∈ sweep.met.rows, sweep.written r.id = false → r.poisoned = true →
    r.expired second.now → second.locked r.id = false →
      r.expired sweep.first.now ∧ sweep.first.locked r.id = false ∧
        sweep.met.ahead sweep.first (fun x ↦ x.expired sweep.first.now && x.poisoned)
          (Job.scanOrder sweep.first.rank) r < sweep.batch
  since : ∀ r ∈ t.rows, sweep.written r.id = true → r.poisoned = true →
    second.locked r.id = false → r.expired second.now = false

def catchesPoison (s : Sweeping) : SweepAct → Prop
  | .second k ctx _ => ∀ sweep, s.sweeps k = some sweep → sweep.Catches s.jobs ctx
  | _ => True

/-- Where others have not written since, the first UPDATE has left the rows as they are. -/
def Sweep.Precedes (sweep : Sweep) (t : Jobs) : Prop :=
  ∀ id, sweep.written id = false →
    t.row id = (sweep.met.deadLetterExpired sweep.first sweep.batch).1.row id

theorem Sweep.Catches.spares {sweep : Sweep} {t : Jobs} {second : Ctx}
    (h : sweep.Catches t second) (ht : sweep.Precedes t) :
    sparesPoison t ⟨second, .recoverExpired sweep.batch⟩ := by
  intro x hx
  obtain ⟨hmem, hexp, hfree⟩ := Jobs.mem_selectForUpdate hx
  rw [← Bool.not_eq_true]
  intro hpoison
  cases hwritten : sweep.written x.id with
  | true => exact absurd hexp (Bool.not_eq_true _ ▸ h.since x hmem hwritten hpoison hfree)
  | false =>
      have hrow := (ht x.id hwritten).symm.trans (Jobs.row_of_mem hmem)
      -- what the first UPDATE has written is dead
      have halive {y : Job} (hdead : (sweep.met.deadLetterExpired sweep.first sweep.batch).1.row
          x.id = some (SetClause.deadLetter sweep.first.now y)) : False := by
        have hs : Status.dead = x.status :=
          congrArg Job.status (Option.some.inj (hdead.symm.trans hrow))
        exact absurd (hs.trans (Job.expired_iff.mp hexp).1) (by decide)
      rcases Jobs.row_deadLetterExpired sweep.met x.id sweep.first sweep.batch with
        hsame | ⟨y, -, -, hdead⟩
      · -- it was there before, so the first UPDATE should have picked it
        have hx₀ := hsame.symm.trans hrow
        obtain ⟨hexp₀, hfree₀, hroom⟩ := h.met x (Jobs.row_mem hx₀) hwritten hpoison hexp hfree
        have hcand : (x.expired sweep.first.now && x.poisoned) = true := by
          rw [hexp₀, hpoison]
          rfl
        have hpick : x ∈ sweep.met.poisonous sweep.first sweep.batch :=
          Jobs.mem_selectForUpdate_of_ahead hx₀ hcand hfree₀ hroom
        exact halive (Jobs.row_updateIn_of_mem hx₀ hpick _)
      · exact halive hdead

theorem Sweep.Precedes.write {sweep : Sweep} {t u : Jobs} (h : sweep.Precedes t) :
    Sweep.Precedes
      { sweep with written := fun id ↦ sweep.written id || decide (t.row id ≠ u.row id) } u := by
  intro id hid
  obtain ⟨hwritten, hsame⟩ := Bool.or_eq_false_iff.mp hid
  rw [← not_not.mp (of_decide_eq_false hsame)]
  exact h id hwritten

namespace Sweeping

def Inv (s : Sweeping) : Prop := ∀ k sweep, s.sweeps k = some sweep → sweep.Precedes s.jobs

theorem Inv.commit {s : Sweeping} (h : s.Inv) (u : Jobs) : (s.commit u).Inv := by
  intro k sweep hk
  obtain ⟨old, hold, rfl⟩ := Option.map_eq_some_iff.mp hk
  exact (h k old hold).write

theorem Inv.next {s : Sweeping} (h : s.Inv) (a : SweepAct) : (s.next a).Inv := by
  have hcommit := h.commit (a.toCall.run s.jobs)
  intro k sweep hk
  cases a with
  | first k' ctx batch =>
      change Function.update _ k' _ k = _ at hk
      by_cases hkk : k = k'
      · rw [hkk, Function.update_self, Option.some.injEq] at hk
        subst hk
        exact fun id _ ↦ rfl
      · rw [Function.update_of_ne hkk] at hk
        exact hcommit k sweep hk
  | second k' ctx batch =>
      change Function.update _ k' _ k = _ at hk
      by_cases hkk : k = k'
      · rw [hkk, Function.update_self] at hk
        cases hk
      · rw [Function.update_of_ne hkk] at hk
        exact hcommit k sweep hk
  | call c => exact hcommit k sweep hk

-- A sweep that catches poison pills leaves none to its second UPDATE.
theorem Inv.spares {s : Sweeping} (h : s.Inv) {a : SweepAct} (ha : s.enabled a)
    (hcatches : catchesPoison s a) : sparesPoison s.jobs a.toCall := by
  cases a with
  | first k ctx batch => trivial
  | second k ctx batch =>
      obtain ⟨sweep, hk, rfl⟩ := Option.map_eq_some_iff.mp ha
      exact (hcatches sweep hk).spares (h k sweep hk)
  | call c =>
      obtain ⟨ctx, op⟩ := c
      cases op with
      | recoverExpired batch => cases ha
      | _ => trivial

theorem Inv.observed {s s' : Sweeping} {id : Nat} {es : List Event} (hs : s.Inv)
    (h : (sweeping.restrict catchesPoison).Observed (sweepChangesOf id) s es s') :
    (jobSweeps.restrict sparesPoison).Observed (changesOf id) s.jobs es s'.jobs := by
  induction h with
  | nil => exact .nil _
  | @cons s u v a es ha _ ih =>
      obtain ⟨hcatches, henabled, rfl⟩ := ha
      exact .cons ⟨hs.spares henabled hcatches, s.jobs_next a⟩ (ih (hs.next a))

end Sweeping

/-! ## How often a job that kills its worker is claimed -/

/-- A call that a worker only makes if it outlives the job, or an operator's. -/
def Event.isSurvival (e : Event) : Bool :=
  match e.call.op with
  | .markFailed .. => true
  | .markSucceeded .. => true
  | .releaseJobs .. => true
  | .retryJob _ => true
  | _ => false

theorem Event.not_isSurvival {e : Event} (h : e.isSurvival = false) :
    e.isRelease = false ∧ e.isRetry = false := by
  unfold Event.isSurvival at h
  unfold Event.isRelease Event.isRetry
  cases hop : e.call.op with
  | releaseJobs | retryJob => rw [hop] at h; cases h
  | _ => exact ⟨rfl, rfl⟩

theorem RowChange.attempts {c : Call} {r r' : Job} (h : RowChange c (some r) (some r'))
    (hno : Event.isSurvival ⟨c, some r, some r'⟩ = false) : r'.attempts = r.attempts := by
  unfold Event.isSurvival at hno
  cases h with
  | failed hop hheld hfail => rw [hop] at hno; cases hno
  | retried hop hdead => rw [hop] at hno; cases hno
  | _ => rfl

/-- Whether a row is under a claim, as a number. -/
def openClaims (o : Option Job) : Nat := if Event.isRunning o then 1 else 0

def Slot.attempts : Slot → Nat
  | .live r => r.attempts
  | _ => 0

def Slot.accounted : Slot → Nat
  | .live r => r.accounted
  | _ => 0

theorem rowLife_killing {s : Slot} {es : List Event} {r : Job}
    (h : rowLife.Run s es (.live r)) (hno : ∀ e ∈ es, e.isSurvival = false) :
    claimsIn es + s.accounted = r.accounted ∧ r.attempts = s.attempts := by
  induction es using List.reverseRecOn generalizing r with
  | nil =>
      cases System.Run.nil_iff.mp h
      exact ⟨Nat.zero_add _, rfl⟩
  | append_singleton es e ih =>
      obtain ⟨s', hs', ha⟩ := System.Run.concat_iff.mp h
      have hlast : e.isSurvival = false := hno e (by simp)
      have hno' : ∀ e ∈ es, e.isSurvival = false := fun e he ↦ hno e (List.mem_append_left _ he)
      rw [claimsIn_append]
      cases ha with
      | born hc =>
          obtain rfl := rowLife_unborn hs'
          cases System.Run.nil_iff.mp hs'
          cases hc with
          | inserted hop =>
              refine ⟨?_, rfl⟩
              rw [claimsIn, claimsIn, List.filter_cons, (Event.of_enqueues hop).1]
              rfl
      | @changed c r₀ _ hc hne =>
          obtain ⟨hcount, hattempts⟩ := ih hs' hno'
          obtain ⟨hrelease, hretry⟩ := Event.not_isSurvival hlast
          have hstep := hc.accounted hne
          have hzero : releasesIn [⟨c, some r₀, some r⟩] = 0 := by
            rw [releasesIn, List.filter_cons, hrelease]
            rfl
          rw [hretry, if_neg Bool.false_ne_true, hzero] at hstep
          exact ⟨by omega, (hc.attempts hlast).trans hattempts⟩

-- What the bound rests on: no sweep's second UPDATE recovers a poison pill.
theorem spared_bounded {t₀ t : Jobs} {id : Nat} {es : List Event} (hinit : unrecovered t₀)
    (h : (jobSweeps.restrict sparesPoison).Observed (changesOf id) t₀ es t) :
    (∀ id r, t.row id = some r → (r.recoveries : Int) ≤ r.maxRecoveries ∧
      (r.status = .pending → (r.recoveries : Int) < r.maxRecoveries)) ∧
    (∀ r, t.row id = some r → r.status ≠ .succeeded → (∀ e ∈ es, e.isSurvival = false) →
      ((openClaims (t₀.row id) + claimsIn es : Nat) : Int) ≤ r.maxRecoveries) := by
  have hbound := jobSweeps_bounded (h.reachable (.init hinit))
  refine ⟨fun id r hr ↦ ⟨(hbound id r hr).recoveries_le,
    fun hs ↦ (hbound id r hr).recoveries_lt (Or.inl hs)⟩, fun r hr hs hno ↦ ?_⟩
  have hb := hbound id r hr
  have hle := hb.recoveries_le
  have hlt := hb.recoveries_lt
  -- the row the run starts from, if there is one
  have hstart : ∃ s : Slot, Jobs.At id t₀ s ∧
      s.attempts + openClaims (t₀.row id) ≤ s.accounted := by
    cases hr0 : t₀.row id with
    | none => exact ⟨.unborn, hr0, Nat.le_refl 0⟩
    | some r0 =>
        refine ⟨.live r0, hr0, ?_⟩
        simp only [Slot.attempts, Slot.accounted, Job.accounted, openClaims, Event.isRunning,
          Option.any_some, decide_eq_true_eq]
        by_cases hs0 : r0.status = .running
        · rw [if_pos hs0, if_pos (Or.inl hs0)]
          omega
        · rw [if_neg hs0]
          omega
  obtain ⟨s, hs0, hacc⟩ := hstart
  obtain ⟨s', hrun, hat⟩ := rowLife_run h.of_restrict hs0
  cases s' with
  | unborn => exact absurd (hr.symm.trans hat) (Option.some_ne_none r)
  | gone => exact absurd (hr.symm.trans hat.1) (Option.some_ne_none r)
  | live r' =>
      obtain rfl := Option.some.inj (hr.symm.trans hat)
      obtain ⟨hcount, hattempts⟩ := rowLife_killing hrun hno
      rw [Job.accounted] at hcount
      cases hstatus : r.status with
      | succeeded => exact absurd hstatus hs
      | running =>
          have hlt := hlt (Or.inr hstatus)
          rw [hstatus, if_pos (Or.inl rfl)] at hcount
          omega
      | pending | dead =>
          rw [hstatus, if_neg (by decide)] at hcount
          omega

/-- While the first UPDATE of every sweep catches the poison pills that the second one could pick,
no job waits with its recoveries used up, none has been recovered more often than it may, and a job
that takes its worker down on each run is claimed at most `max_recoveries` times. -/
theorem recoveries_bounded {s₀ s : Sweeping} {id : Nat} {es : List Event}
    (hinit : sweeping.init s₀)
    (h : (sweeping.restrict catchesPoison).Observed (sweepChangesOf id) s₀ es s) :
    (∀ id r, s.jobs.row id = some r → (r.recoveries : Int) ≤ r.maxRecoveries ∧
      (r.status = .pending → (r.recoveries : Int) < r.maxRecoveries)) ∧
    (∀ r, s.jobs.row id = some r → r.status ≠ .succeeded → (∀ e ∈ es, e.isSurvival = false) →
      ((openClaims (s₀.jobs.row id) + claimsIn es : Nat) : Int) ≤ r.maxRecoveries) := by
  obtain ⟨t, ht, rfl⟩ := hinit
  have hnone : (Sweeping.start t).Inv := by
    intro k sweep hk
    cases hk
  exact spared_bounded ht (hnone.observed h)

/-- A job that may be recovered once, in a table of its own. -/
def fragile : Jobs where
  rows := [{ Job.insert 1 "t" "" none 0 with maxRecoveries := 1 }]
  nextId := 2
  idsNodup := List.nodup_singleton _
  idsLt r hr := by rw [List.mem_singleton.mp hr]; decide
  keysNodup := List.nodup_nil

theorem fragile_unrecovered : unrecovered fragile := by
  intro r hr
  rw [List.mem_singleton.mp hr]
  decide

/-- A claim, a sweep whose two UPDATEs run at these times, and another claim. -/
def sweptAt (first second : Int) : List SweepAct :=
  [.call ⟨.alone 0, .claimJobs "w" 30 1⟩, .first 0 (.alone first) 100,
    .second 0 (.alone second) 100, .call ⟨.alone second, .claimJobs "w" 30 1⟩]

def Sweeping.after (s : Sweeping) (as : List SweepAct) : Sweeping := as.foldl Sweeping.next s

def Sweeping.eventsOf (id : Nat) : Sweeping → List SweepAct → List Event
  | _, [] => []
  | s, a :: as => sweepChangesOf id s a (s.next a) ++ eventsOf id (s.next a) as

/-- The lease runs out at 30 s, both UPDATEs come later. -/
theorem recoveries_bounded_fragile :
    ∃ r, ((Sweeping.start fragile).after (sweptAt 31000000 32000000)).jobs.row 1 = some r ∧
      r.status = .dead ∧ (r.recoveries : Int) ≤ 1 ∧
      (claimsIn ((Sweeping.start fragile).eventsOf 1 (sweptAt 31000000 32000000)) : Int) ≤ 1 := by
  have hrun : (sweeping.restrict catchesPoison).Observed (sweepChangesOf 1) (.start fragile)
      ((Sweeping.start fragile).eventsOf 1 (sweptAt 31000000 32000000))
      ((Sweeping.start fragile).after (sweptAt 31000000 32000000)) := by
    refine .cons ⟨trivial, rfl, rfl⟩ (.cons ⟨trivial, trivial, rfl⟩ (.cons ⟨?_, rfl, rfl⟩
      (.cons ⟨trivial, rfl, rfl⟩ (.nil _))))
    intro sweep hk
    obtain rfl := Option.some.inj hk
    exact ⟨by decide, by decide⟩
  have h := recoveries_bounded ⟨fragile, fragile_unrecovered, rfl⟩ hrun
  have hclaims := h.2 _ rfl (by decide) (by decide)
  refine ⟨_, rfl, rfl, (h.1 1 _ rfl).1, ?_⟩
  exact hclaims

/-- The lease runs out between the two clock readings of the sweep. -/
def sweptBetween : List SweepAct := sweptAt 30000000 30000001

/-- The job is back in the queue with its one recovery used up, and is claimed a second time. -/
theorem recoveries_unbounded_fragile :
    sweeping.init (.start fragile) ∧
    (sweeping.Reachable ((Sweeping.start fragile).after (sweptBetween.take 3)) ∧
      ∃ r, ((Sweeping.start fragile).after (sweptBetween.take 3)).jobs.row 1 = some r ∧
        r.status = .pending ∧ r.maxRecoveries = 1 ∧ r.recoveries = 1) ∧
    sweeping.Observed (sweepChangesOf 1) (.start fragile)
      ((Sweeping.start fragile).eventsOf 1 sweptBetween)
      ((Sweeping.start fragile).after sweptBetween) ∧
    (∀ e ∈ (Sweeping.start fragile).eventsOf 1 sweptBetween, e.isSurvival = false) ∧
    claimsIn ((Sweeping.start fragile).eventsOf 1 sweptBetween) = 2 := by
  have hinit : sweeping.init (.start fragile) := ⟨fragile, fragile_unrecovered, rfl⟩
  refine ⟨hinit, ⟨?_, _, rfl, rfl, rfl, rfl⟩, ?_, by decide, by decide⟩
  · have hrun : sweeping.Observed (sweepChangesOf 1) (.start fragile)
        ((Sweeping.start fragile).eventsOf 1 (sweptBetween.take 3))
        ((Sweeping.start fragile).after (sweptBetween.take 3)) :=
      .cons ⟨rfl, rfl⟩ (.cons ⟨trivial, rfl⟩ (.cons ⟨rfl, rfl⟩ (.nil _)))
    exact hrun.reachable (.init hinit)
  · exact .cons ⟨rfl, rfl⟩ (.cons ⟨trivial, rfl⟩ (.cons ⟨rfl, rfl⟩ (.cons ⟨rfl, rfl⟩ (.nil _))))

end DurableQueue
