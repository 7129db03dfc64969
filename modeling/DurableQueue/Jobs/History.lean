import DurableQueue.Jobs.Lifecycle
import Mathlib.Data.List.DropRight

/-!
# The history of a row

The calls that changed one row, in order, as a run of a small machine over that row alone.  Every
claim ends once and by the right party, and the two failure counters count the endings.
-/

open Reasoning

namespace DurableQueue

/-- A call that changed a row, and the row around it. -/
structure Event where
  call : Call
  before : Option Job
  after : Option Job

namespace Event

def isClaim (e : Event) : Bool :=
  match e.call.op with
  | .claimJobs .. => true
  | _ => false

def isRelease (e : Event) : Bool :=
  match e.call.op with
  | .releaseJobs .. => true
  | _ => false

def isRetry (e : Event) : Bool :=
  match e.call.op with
  | .retryJob _ => true
  | _ => false

def isRunning (o : Option Job) : Bool := o.any fun r ↦ decide (r.status = .running)

-- A claim has ended once its row runs no longer, whatever the call was.
def endsClaim (e : Event) : Bool := isRunning e.before && !isRunning e.after

theorem isClaim_iff {e : Event} :
    e.isClaim ↔ ∃ w lease batch, e.call.op = .claimJobs w lease batch := by
  unfold isClaim
  cases e.call.op with
  | claimJobs w lease batch => exact ⟨fun _ ↦ ⟨w, lease, batch, rfl⟩, fun _ ↦ rfl⟩
  | _ => simp

theorem of_enqueues {c : Call} {o o' : Option Job} (h : c.op.enqueues) :
    isClaim ⟨c, o, o'⟩ = false ∧ isRelease ⟨c, o, o'⟩ = false ∧ isRetry ⟨c, o, o'⟩ = false := by
  unfold isClaim isRelease isRetry
  cases hop : c.op with
  | enqueue | enqueueMany => exact ⟨rfl, rfl, rfl⟩
  | _ => rw [hop] at h; cases h

def leavesDead (e : Event) : Bool := e.after.any fun r ↦ decide (r.status = .dead)

/-- The parties that may end the claim of `w`: the holder, who failed or gave the job back, and a
sweep that came after the lease. -/
def EndedRightly (e : Event) (w : WorkerId) : Prop :=
  ∃ r, e.before = some r ∧
    ((∃ error permanent maxAttempts draw,
        e.call.op = .markFailed r.id w error permanent maxAttempts draw) ∨
      (∃ ids, r.id ∈ ids ∧ e.call.op = .releaseJobs ids w) ∨
      e.call.op.isSweep ∧ ∃ u, r.lockedUntil = some u ∧ u < e.call.now)

end Event

/-- What happened since the row was created or last retried. -/
def sinceRetry (es : List Event) : List Event := es.rtakeWhile fun e ↦ !e.isRetry

/-- Where an id is in its life: not seen yet, a row, or the id of a row that was deleted. -/
inductive Slot where
  | unborn
  | live (r : Job)
  | gone

inductive Slot.Step : Slot → Event → Slot → Prop where
  | born {c : Call} {r : Job} (h : RowChange c none (some r)) :
      Step .unborn ⟨c, none, some r⟩ (.live r)
  | changed {c : Call} {r r' : Job} (h : RowChange c (some r) (some r')) (hne : r ≠ r') :
      Step (.live r) ⟨c, some r, some r'⟩ (.live r')
  | deleted {c : Call} {r : Job} (h : RowChange c (some r) none) :
      Step (.live r) ⟨c, some r, none⟩ .gone

/-- One row by itself. -/
def rowLife : System Slot Event where
  init s := s = .unborn
  step := Slot.Step

/-! ## The table refines the machine of each of its rows -/

/-- The events a call shows at `id`. -/
def changesOf (id : Nat) (t : Jobs) (c : Call) (u : Jobs) : List Event :=
  if t.row id = u.row id then [] else [⟨c, t.row id, u.row id⟩]

/-- What a list of calls shows at `id`. -/
def historyOf (id : Nat) : Jobs → List Call → List Event
  | _, [] => []
  | t, c :: cs => changesOf id t c (c.run t) ++ historyOf id (c.run t) cs

theorem observed_historyOf {init : Jobs → Prop} (id : Nat) (t : Jobs) (cs : List Call) :
    (jobCallsFrom init).Observed (changesOf id) t (historyOf id t cs) (runCalls t cs) := by
  induction cs generalizing t with
  | nil => exact .nil t
  | cons c cs ih => exact .cons rfl (ih _)

def Jobs.At (id : Nat) (t : Jobs) : Slot → Prop
  | .unborn => t.row id = none
  | .live r => t.row id = some r
  | .gone => t.row id = none ∧ id < t.nextId

theorem rowLife_matches (id : Nat) {t u : Jobs} {c : Call} {s : Slot} (hs : Jobs.At id t s)
    (hu : u = c.run t) : ∃ s', rowLife.Run s (changesOf id t c u) s' ∧ Jobs.At id u s' := by
  subst hu
  have hc := c.run_row t id
  unfold changesOf
  cases s with
  | unborn =>
      have hr : t.row id = none := hs
      rw [hr] at hc ⊢
      cases hr' : (c.run t).row id with
      | none => exact ⟨.unborn, by rw [if_pos rfl]; exact .nil _, hr'⟩
      | some r =>
          rw [hr'] at hc
          rw [if_neg (Option.some_ne_none r).symm]
          exact ⟨.live r, .single (.born hc), hr'⟩
  | live r =>
      have hr : t.row id = some r := hs
      rw [hr] at hc ⊢
      cases hr' : (c.run t).row id with
      | none =>
          rw [hr'] at hc
          rw [if_neg (Option.some_ne_none r)]
          exact ⟨.gone, .single (.deleted hc), hr', (c.run_of_lt (Jobs.row_lt hr)).1⟩
      | some r' =>
          rw [hr'] at hc
          by_cases he : r = r'
          · rw [if_pos (congrArg some he)]
            exact ⟨.live r, .nil _, hr'.trans (congrArg some he.symm)⟩
          · rw [if_neg fun h ↦ he (Option.some.inj h)]
            exact ⟨.live r', .single (.changed hc he), hr'⟩
  | gone =>
      obtain ⟨hr, hid⟩ : t.row id = none ∧ id < t.nextId := hs
      obtain ⟨hlt, hgone⟩ := c.run_of_lt hid
      rw [hr, hgone hr, if_pos rfl]
      exact ⟨.gone, .nil _, hgone hr, hlt⟩

-- What a run of the table shows at `id` is a run of the row.
theorem rowLife_run {init : Jobs → Prop} {id : Nat} {t u : Jobs} {es : List Event} {s : Slot}
    (h : (jobCallsFrom init).Observed (changesOf id) t es u) (hs : Jobs.At id t s) :
    ∃ s', rowLife.Run s es s' ∧ Jobs.At id u s' :=
  h.simulated (Jobs.At id) (fun _ _ _ _ hR hu ↦ rowLife_matches id hR hu) hs

/-! ## Endings -/

-- A running row is changed by its holder, or by a sweep after its lease has run out.
theorem RowChange.of_running {c : Call} {r : Job} {o : Option Job} (h : RowChange c (some r) o)
    (hs : r.status = .running) :
    o = some r ∨ (∃ w, r.lockedBy = some w ∧ c.op.workerId = some w) ∨
      c.op.isSweep ∧ ∃ u, r.lockedUntil = some u ∧ u < c.now := by
  cases h with
  | same => exact Or.inl rfl
  | claimed hop hdue hfree => exact absurd ((Job.due_iff.mp hdue).1.symm.trans hs) (by decide)
  | @extended _ w lease hop hheld =>
      refine Or.inr (Or.inl ⟨w, (Job.heldBy_iff.mp hheld).1, ?_⟩)
      rcases hop with hop | ⟨ids, -, hop⟩ <;> rw [hop] <;> rfl
  | deadLettered hop hexp hpoison hfree =>
      exact Or.inr (Or.inr ⟨by rw [hop]; rfl, (Job.expired_iff.mp hexp).2⟩)
  | recovered hop hexp hfree =>
      exact Or.inr (Or.inr ⟨by rw [hop]; rfl, (Job.expired_iff.mp hexp).2⟩)
  | released hop hmem hheld =>
      exact Or.inr (Or.inl ⟨_, (Job.heldBy_iff.mp hheld).1, by rw [hop]; rfl⟩)
  | succeeded hop hheld =>
      exact Or.inr (Or.inl ⟨_, (Job.heldBy_iff.mp hheld).1, by rw [hop]; rfl⟩)
  | failed hop hheld hfail =>
      exact Or.inr (Or.inl ⟨_, (Job.heldBy_iff.mp hheld).1, by rw [hop]; rfl⟩)
  | retried hop hdead => exact absurd (hdead.symm.trans hs) (by decide)
  | purged hop hfin hfree =>
      rcases (Job.finishedBefore_iff.mp hfin).1 with h | h <;>
        exact absurd (h.symm.trans hs) (by decide)

-- A pending row changes by being claimed.
theorem RowChange.of_pending {c : Call} {r : Job} {o : Option Job} (h : RowChange c (some r) o)
    (hs : r.status = .pending) :
    o = some r ∨ ∃ w lease batch, c.op = .claimJobs w lease batch := by
  have hheld {w : WorkerId} (hw : r.heldBy w) : False :=
    absurd (hs.symm.trans (Job.heldBy_iff.mp hw).2) (by decide)
  have hexp {now : Int} (he : r.expired now) : False :=
    absurd (hs.symm.trans (Job.expired_iff.mp he).1) (by decide)
  cases h with
  | same => exact Or.inl rfl
  | claimed hop hdue hfree => exact Or.inr ⟨_, _, _, hop⟩
  | extended hop hw => exact (hheld hw).elim
  | deadLettered hop he hpoison hfree => exact (hexp he).elim
  | recovered hop he hfree => exact (hexp he).elim
  | released hop hmem hw => exact (hheld hw).elim
  | succeeded hop hw => exact (hheld hw).elim
  | failed hop hw hfail => exact (hheld hw).elim
  | retried hop hdead => exact absurd (hs.symm.trans hdead) (by decide)
  | purged hop hfin hfree =>
      rcases (Job.finishedBefore_iff.mp hfin).1 with h | h <;>
        exact absurd (hs.symm.trans h) (by decide)

-- A finished row is deleted, or retried if it is dead.
theorem RowChange.of_finished {c : Call} {r : Job} {o : Option Job} (h : RowChange c (some r) o)
    (hs : r.status = .succeeded ∨ r.status = .dead) :
    o = some r ∨ o = none ∨
      r.status = .dead ∧ c.op = .retryJob r.id ∧ o = some (SetClause.retry c.now r) := by
  have hnot : r.status ≠ .running ∧ r.status ≠ .pending := by
    rcases hs with hs | hs <;> rw [hs] <;> decide
  cases h with
  | same => exact Or.inl rfl
  | claimed hop hdue hfree => exact absurd (Job.due_iff.mp hdue).1 hnot.2
  | extended hop hw => exact absurd (Job.heldBy_iff.mp hw).2 hnot.1
  | deadLettered hop he hpoison hfree => exact absurd (Job.expired_iff.mp he).1 hnot.1
  | recovered hop he hfree => exact absurd (Job.expired_iff.mp he).1 hnot.1
  | released hop hmem hw => exact absurd (Job.heldBy_iff.mp hw).2 hnot.1
  | succeeded hop hw => exact absurd (Job.heldBy_iff.mp hw).2 hnot.1
  | failed hop hw hfail => exact absurd (Job.heldBy_iff.mp hw).2 hnot.1
  | retried hop hdead => exact Or.inr (Or.inr ⟨hdead, hop, rfl⟩)
  | purged hop hfin hfree => exact Or.inr (Or.inl rfl)

-- What a call makes of a running row that it leaves in the table.
theorem RowChange.ends {c : Call} {r r' : Job} {w : WorkerId}
    (h : RowChange c (some r) (some r')) (hs : r.status = .running) (hw : r.lockedBy = some w) :
    r'.status = .running ∧ r'.lockedBy = some w ∨ r'.status = .succeeded ∨
      (r'.status = .pending ∨ r'.status = .dead) ∧
        Event.EndedRightly ⟨c, some r, some r'⟩ w := by
  have hholder {v : WorkerId} (hv : r.heldBy v) : v = w :=
    Option.some.inj ((Job.heldBy_iff.mp hv).1.symm.trans hw)
  have hsweep (hop : c.op.isSweep) (he : r.expired c.now) :
      Event.EndedRightly ⟨c, some r, some r'⟩ w :=
    ⟨r, rfl, Or.inr (Or.inr ⟨hop, (Job.expired_iff.mp he).2⟩)⟩
  cases h with
  | same => exact Or.inl ⟨hs, hw⟩
  | claimed hop hdue hfree => exact absurd ((Job.due_iff.mp hdue).1.symm.trans hs) (by decide)
  | extended hop hheld => exact Or.inl ⟨hs, hw⟩
  | deadLettered hop he hpoison hfree =>
      exact Or.inr (Or.inr ⟨Or.inr rfl, hsweep (by rw [hop]; rfl) he⟩)
  | recovered hop he hfree =>
      exact Or.inr (Or.inr ⟨Or.inl rfl, hsweep (by rw [hop]; rfl) he⟩)
  | released hop hmem hheld =>
      exact Or.inr (Or.inr ⟨Or.inl rfl, r, rfl, Or.inr (Or.inl ⟨_, hmem, hholder hheld ▸ hop⟩)⟩)
  | succeeded hop hheld => exact Or.inr (Or.inl rfl)
  | failed hop hheld hfail =>
      refine Or.inr (Or.inr ⟨?_, r, rfl, Or.inl ⟨_, _, _, _, hholder hheld ▸ hop⟩⟩)
      rcases Job.failed_cases hfail with ⟨rfl, -⟩ | ⟨delay, -, rfl, -⟩
      · exact Or.inr rfl
      · exact Or.inl rfl
  | retried hop hdead => exact absurd (hdead.symm.trans hs) (by decide)

section Between

variable {r r' : Job} {mid : List Event} {w : WorkerId}

-- Until its next claim a pending row does not change.
theorem rowLife_pending (h : rowLife.Run (.live r) mid (.live r')) (hs : r.status = .pending)
    (hno : ∀ e ∈ mid, e.isClaim = false) : mid = [] := by
  cases h with
  | nil => rfl
  | @cons _ _ _ e es ha _ =>
      have hclaim : e.isClaim = false := hno e (List.mem_cons_self ..)
      cases ha with
      | changed hc hne =>
          rcases hc.of_pending hs with he | ⟨v, lease, batch, hop⟩
          · exact absurd (Option.some.inj he).symm hne
          · simp only [Event.isClaim, hop] at hclaim
            exact absurd hclaim (by decide)
      | deleted hc =>
          rcases hc.of_pending hs with he | ⟨v, lease, batch, hop⟩
          · cases he
          · simp only [Event.isClaim, hop] at hclaim
            exact absurd hclaim (by decide)

theorem rowLife_gone {s : Slot} (h : rowLife.Run .gone mid s) : s = .gone := by
  cases h with
  | nil => rfl
  | cons ha _ => cases ha

-- A finished row that is to be claimed again is dead, and is retried once.
theorem rowLife_finished (h : rowLife.Run (.live r) mid (.live r'))
    (hs : r.status = .succeeded ∨ r.status = .dead) (hs' : r'.status = .pending)
    (hno : ∀ e ∈ mid, e.isClaim = false) :
    r.status = .dead ∧ ∃ e, mid = [e] ∧ e.isRetry = true ∧ e.endsClaim = false := by
  cases h with
  | nil => rcases hs with hs | hs <;> exact absurd (hs.symm.trans hs') (by decide)
  | @cons _ _ _ e es ha hrest =>
      cases ha with
      | deleted hc => cases rowLife_gone hrest
      | @changed c _ r₁ hc hne =>
          rcases hc.of_finished hs with he | he | ⟨hdead, hop, he⟩
          · exact absurd (Option.some.inj he).symm hne
          · cases he
          · obtain rfl := Option.some.inj he
            have hnil := rowLife_pending hrest rfl fun e he ↦ hno e (List.mem_cons_of_mem _ he)
            subst hnil
            refine ⟨hdead, _, rfl, by simp only [Event.isRetry, hop], ?_⟩
            simp [Event.endsClaim, Event.isRunning, hdead]

/-- Between two claims: one ending, by the holder or by a sweep after the lease, and a retry
exactly if that ending left the job dead. -/
theorem rowLife_between (h : rowLife.Run (.live r) mid (.live r')) (hs : r.status = .running)
    (hw : r.lockedBy = some w) (hs' : r'.status = .pending)
    (hno : ∀ e ∈ mid, e.isClaim = false) :
    ∃ e, mid.filter Event.endsClaim = [e] ∧ e.EndedRightly w ∧
      (mid.filter Event.isRetry).length = if e.leavesDead then 1 else 0 := by
  induction mid generalizing r with
  | nil =>
      cases System.Run.nil_iff.mp h
      exact absurd (hs.symm.trans hs') (by decide)
  | cons e es ih =>
      obtain ⟨s, ha, hrest⟩ := System.Run.cons_iff.mp h
      have hno' : ∀ e ∈ es, e.isClaim = false := fun e he ↦ hno e (List.mem_cons_of_mem _ he)
      cases ha with
      | deleted hc => cases rowLife_gone hrest
      | @changed c _ r₁ hc hne =>
          have hretry : Event.isRetry ⟨c, some r, some r₁⟩ = false := by
            cases hop : c.op with
            | retryJob id =>
                exfalso
                rcases hc.of_running hs with he | ⟨v, -, hv⟩ | ⟨hv, -⟩
                · exact hne (Option.some.inj he).symm
                · rw [hop] at hv; cases hv
                · rw [hop] at hv; cases hv
            | _ => simp only [Event.isRetry, hop]
          have hends : Event.endsClaim ⟨c, some r, some r₁⟩ = !decide (r₁.status = .running) := by
            simp [Event.endsClaim, Event.isRunning, hs]
          rw [List.filter_cons, List.filter_cons, hretry, hends]
          simp only [Bool.false_eq_true, if_false]
          rcases hc.ends hs hw with ⟨hs₁, hw₁⟩ | hs₁ | ⟨hs₁, hright⟩
          · -- the holder extended its lease
            obtain ⟨e, hmid, he⟩ := ih hrest hs₁ hw₁ hno'
            refine ⟨e, ?_, he⟩
            rw [hs₁, decide_eq_true rfl, Bool.not_true, if_neg Bool.false_ne_true, hmid]
          · have hdead := (rowLife_finished hrest (Or.inl hs₁) hs' hno').1
            exact absurd (hs₁.symm.trans hdead) (by decide)
          · refine ⟨_, ?_, hright, ?_⟩
            · rcases hs₁ with hs₁ | hs₁
              · rw [hs₁, rowLife_pending hrest hs₁ hno']
                rfl
              · obtain ⟨-, e, rfl, -, he⟩ := rowLife_finished hrest (Or.inr hs₁) hs' hno'
                rw [hs₁, List.filter_cons, he]
                rfl
            · rcases hs₁ with hs₁ | hs₁
              · rw [rowLife_pending hrest hs₁ hno']
                simp [Event.leavesDead, hs₁]
              · obtain ⟨-, e, rfl, he, -⟩ := rowLife_finished hrest (Or.inr hs₁) hs' hno'
                simp [Event.leavesDead, hs₁, he]

end Between

/-! ## Counting -/

/-- The claims a row accounts for: those that failed, those that were recovered, and the one that
is running or has succeeded. -/
def Job.accounted (r : Job) : Nat :=
  r.attempts + r.recoveries + if r.status = .running ∨ r.status = .succeeded then 1 else 0

def claimsIn (es : List Event) : Nat := (es.filter Event.isClaim).length

def releasesIn (es : List Event) : Nat := (es.filter Event.isRelease).length

theorem RowChange.accounted {c : Call} {r r' : Job} (h : RowChange c (some r) (some r'))
    (hne : r ≠ r') :
    r'.accounted + releasesIn [⟨c, some r, some r'⟩] =
      if Event.isRetry ⟨c, some r, some r'⟩ then 0
      else r.accounted + claimsIn [⟨c, some r, some r'⟩] := by
  have hrun {w : WorkerId} (hw : r.heldBy w) : r.status = .running := (Job.heldBy_iff.mp hw).2
  cases h with
  | same => exact absurd rfl hne
  | claimed hop hdue hfree =>
      simp [Job.accounted, claimsIn, releasesIn, Event.isClaim, Event.isRelease, Event.isRetry,
        hop, SetClause.claim, (Job.due_iff.mp hdue).1]
  | extended hop hheld =>
      rcases hop with hop | ⟨ids, -, hop⟩ <;>
        simp [Job.accounted, claimsIn, releasesIn, Event.isClaim, Event.isRelease, Event.isRetry,
          hop, SetClause.extend, hrun hheld]
  | deadLettered hop hexp hpoison hfree =>
      simp [Job.accounted, claimsIn, releasesIn, Event.isClaim, Event.isRelease, Event.isRetry,
        hop, SetClause.deadLetter, (Job.expired_iff.mp hexp).1, Nat.add_assoc]
  | recovered hop hexp hfree =>
      simp [Job.accounted, claimsIn, releasesIn, Event.isClaim, Event.isRelease, Event.isRetry,
        hop, SetClause.recover, (Job.expired_iff.mp hexp).1, Nat.add_assoc]
  | released hop hmem hheld =>
      simp [Job.accounted, claimsIn, releasesIn, Event.isClaim, Event.isRelease, Event.isRetry,
        hop, SetClause.release, hrun hheld]
  | succeeded hop hheld =>
      simp [Job.accounted, claimsIn, releasesIn, Event.isClaim, Event.isRelease, Event.isRetry,
        hop, SetClause.succeed, hrun hheld]
  | failed hop hheld hfail =>
      rcases Job.failed_cases hfail with ⟨rfl, -⟩ | ⟨delay, -, rfl, -⟩ <;>
        simp [Job.accounted, claimsIn, releasesIn, Event.isClaim, Event.isRelease, Event.isRetry,
          hop, SetClause.bury, SetClause.reschedule, SetClause.countFailure,
          hrun hheld] <;> omega
  | retried hop hdead =>
      simp [Job.accounted, releasesIn, Event.isRelease, Event.isRetry, hop, SetClause.retry]

theorem sinceRetry_concat (es : List Event) (e : Event) :
    sinceRetry (es ++ [e]) = if e.isRetry then [] else sinceRetry es ++ [e] := by
  unfold sinceRetry
  rw [List.rtakeWhile_concat]
  cases e.isRetry <;> rfl

theorem claimsIn_append (es es' : List Event) :
    claimsIn (es ++ es') = claimsIn es + claimsIn es' := by
  rw [claimsIn, List.filter_append, List.length_append, claimsIn, claimsIn]

theorem releasesIn_append (es es' : List Event) :
    releasesIn (es ++ es') = releasesIn es + releasesIn es' := by
  rw [releasesIn, List.filter_append, List.length_append, releasesIn, releasesIn]

theorem rowLife_unborn {es : List Event} {s : Slot} (h : rowLife.Run s es .unborn) : es = [] := by
  cases es using List.reverseRecOn with
  | nil => rfl
  | append_singleton es e =>
      obtain ⟨s', _, ha⟩ := System.Run.concat_iff.mp h
      cases ha

/-- The identity between the calls a row has seen and what it has counted. -/
theorem rowLife_accounted {es : List Event} {r : Job} (h : rowLife.Run .unborn es (.live r)) :
    claimsIn (sinceRetry es) = r.accounted + releasesIn (sinceRetry es) := by
  -- by induction on the run from its end, where the row is
  induction es using List.reverseRecOn generalizing r with
  | nil => cases System.Run.nil_iff.mp h
  | append_singleton es e ih =>
      obtain ⟨s, hs, ha⟩ := System.Run.concat_iff.mp h
      rw [sinceRetry_concat]
      cases ha with
      | @born c _ hc =>
          obtain rfl := rowLife_unborn hs
          cases hc with
          | inserted hop =>
              obtain ⟨hclaim, hrelease, hretry⟩ := Event.of_enqueues hop
              rw [hretry, if_neg Bool.false_ne_true]
              simp only [claimsIn, releasesIn, sinceRetry, List.rtakeWhile_nil, List.nil_append,
                List.filter_cons, hclaim, hrelease]
              rfl
      | @changed c r₀ _ hc hne =>
          have hstep := hc.accounted hne
          cases hretry : Event.isRetry ⟨c, some r₀, some r⟩ with
          | true =>
              rw [hretry, if_pos rfl] at hstep
              rw [if_pos rfl]
              simp only [claimsIn, releasesIn, List.filter_nil, List.length_nil]
              omega
          | false =>
              rw [hretry, if_neg Bool.false_ne_true] at hstep
              rw [if_neg Bool.false_ne_true, claimsIn_append, releasesIn_append]
              have hbefore := ih hs
              omega

/-! ## The claims of a job -/

theorem rowLife_claim {s s' : Slot} {e : Event} (h : rowLife.step s e s') (hc : e.isClaim) :
    ∃ r r' w, s = .live r ∧ r.status = .pending ∧ s' = .live r' ∧ r'.status = .running ∧
      r'.lockedBy = some w ∧ e.call.op.workerId = some w := by
  obtain ⟨w, lease, batch, hop⟩ := Event.isClaim_iff.mp hc
  clear hc
  cases h with
  | born hc =>
      cases hc with
      | inserted henq => rw [hop] at henq; cases henq
  | changed hc hne =>
      cases hc with
      | same => exact absurd rfl hne
      | claimed hop' hdue hfree =>
          exact ⟨_, _, _, rfl, (Job.due_iff.mp hdue).1, rfl, rfl, rfl, by rw [hop']; rfl⟩
      | extended hop' => rcases hop' with hop' | ⟨_, _, hop'⟩ <;> cases hop.symm.trans hop'
      | deadLettered hop' => cases hop.symm.trans hop'
      | recovered hop' => cases hop.symm.trans hop'
      | released hop' => cases hop.symm.trans hop'
      | succeeded hop' => cases hop.symm.trans hop'
      | failed hop' => cases hop.symm.trans hop'
      | retried hop' => cases hop.symm.trans hop'
  | deleted hc =>
      cases hc with
      | purged hop' => cases hop.symm.trans hop'

/-- Between two claims of a job exactly one call ends the first: a `mark_failed` or `release_jobs`
by its holder, or a sweep after its lease, and a `retry_job` follows if that left the job dead.
Nobody else changes the running row, and what it has counted accounts for every claim. -/
theorem claims_end_once {id : Nat} {es : List Event} {t : Jobs}
    (h : jobCalls.Observed (changesOf id) Jobs.empty es t) :
    (∀ pre e₁ mid e₂ post w, es = pre ++ e₁ :: (mid ++ e₂ :: post) →
      e₁.isClaim → e₁.call.op.workerId = some w → e₂.isClaim → (∀ e ∈ mid, e.isClaim = false) →
      ∃ e, mid.filter Event.endsClaim = [e] ∧ e.EndedRightly w ∧
        (mid.filter Event.isRetry).length = if e.leavesDead then 1 else 0) ∧
    (∀ (c : Call) r, t.row id = some r → r.status = .running → (c.run t).row id ≠ some r →
      (∃ w, r.lockedBy = some w ∧ c.op.workerId = some w) ∨
        c.op.isSweep ∧ ∃ u, r.lockedUntil = some u ∧ u < c.now) ∧
    (∀ r, t.row id = some r → claimsIn (sinceRetry es) =
      r.attempts + r.recoveries + releasesIn (sinceRetry es) +
        if r.status = .running ∨ r.status = .succeeded then 1 else 0) := by
  obtain ⟨s, hrun, hs⟩ := rowLife_run (s := .unborn) h rfl
  refine ⟨?_, ?_, ?_⟩
  · intro pre e₁ mid e₂ post w hes hc₁ hw hc₂ hno
    rw [hes] at hrun
    obtain ⟨s₁, _, hrun⟩ := System.Run.append_iff.mp hrun
    obtain ⟨s₂, ha₁, hrun⟩ := System.Run.cons_iff.mp hrun
    obtain ⟨s₃, hmid, hrun⟩ := System.Run.append_iff.mp hrun
    obtain ⟨s₄, ha₂, _⟩ := System.Run.cons_iff.mp hrun
    obtain ⟨-, r, w', -, -, rfl, hr, hrw, hw'⟩ := rowLife_claim ha₁ hc₁
    obtain ⟨r', -, -, rfl, hr', -, -, -⟩ := rowLife_claim ha₂ hc₂
    have hww : w' = w := Option.some.inj (hw'.symm.trans hw)
    exact rowLife_between hmid hr (hww ▸ hrw) hr' hno
  · intro c r hr hrs hne
    have hc := c.run_row t id
    rw [hr] at hc
    exact (hc.of_running hrs).resolve_left hne
  · intro r hr
    cases s with
    | unborn => exact absurd (hr.symm.trans hs) (Option.some_ne_none r)
    | gone => exact absurd (hr.symm.trans hs.1) (Option.some_ne_none r)
    | live r' =>
        obtain rfl := Option.some.inj (hr.symm.trans hs)
        have hcount := rowLife_accounted hrun
        rw [Job.accounted] at hcount
        omega

/-- A job enqueued, claimed by `a`, recovered after its lease, and claimed by `b`. -/
def recoveredOnce : List Call :=
  [⟨.alone 0, .enqueue "t" "" none⟩, ⟨.alone 0, .claimJobs "a" 30 1⟩,
    ⟨.alone 31000000, .recoverExpired 100⟩, ⟨.alone 31000000, .claimJobs "b" 30 1⟩]

theorem claims_end_once_recovered :
    (∃ e, (((historyOf 1 .empty recoveredOnce).drop 2).take 1).filter Event.endsClaim = [e] ∧
      e.EndedRightly "a") ∧
    (∃ r, (runCalls .empty recoveredOnce).row 1 = some r ∧ r.lockedBy = some "b" ∧
      claimsIn (sinceRetry (historyOf 1 .empty recoveredOnce)) =
        r.attempts + r.recoveries + 0 + 1) := by
  have h := claims_end_once (observed_historyOf 1 .empty recoveredOnce)
  refine ⟨?_, ?_⟩
  · obtain ⟨e, he, hright, -⟩ := h.1 ((historyOf 1 .empty recoveredOnce).take 1) _
      (((historyOf 1 .empty recoveredOnce).drop 2).take 1) _ [] "a" rfl rfl rfl rfl
      (by intro e he; cases List.mem_singleton.mp he; rfl)
    exact ⟨e, he, hright⟩
  · exact ⟨_, rfl, rfl, h.2.2 _ rfl⟩

end DurableQueue
