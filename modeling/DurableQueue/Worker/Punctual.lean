import DurableQueue.Worker.Coverage

/-!
# Punctual heartbeats

The fleet with a clock.  A heartbeat goes round in two steps: it reads the live jobs off its map and
then extends their leases.  As long as each round that succeeds has ended soon enough after the last
such round began, no lease of a run under way lapses, and no two runs of one job are under way
together.
-/

open Reasoning

namespace DurableQueue

/-- It has been claimed, and its process has neither ended it nor taken it out of the buffer. -/
def Phase.underWay : Phase → Bool
  | settled | unstarted => false
  | _ => true

theorem Phase.underWay_of_executing {phase : Phase} (h : Fleet.isExecuting phase = true) :
    phase.underWay = true := by
  cases phase with
  | executing deadline => rfl
  | _ => cases h

theorem Phase.underWay_of_failing {phase : Phase} (h : Fleet.isFailing phase = true) :
    phase.underWay = true := by
  cases phase with
  | failing deadline => rfl
  | _ => cases h

/-- `lease` is the `lease_seconds` of a worker, `within` the time from the start of one successful
round of its heartbeat to the success of the next, and `grace` that from a claim to its `hold`, both
in microseconds. -/
structure Pace where
  lease : WorkerId → Int
  within : Nat
  grace : Nat
  fits : ∀ w, (within + grace : Int) ≤ seconds (lease w)

/-- `reading` is a round under way: the jobs, and when they were read off the map.  `roundAt` says
when the last round that succeeded read it, and `claimedAt` when a job was claimed last. -/
structure TimedFleet where
  fleet : Fleet
  now : Int
  reading : WorkerId → Option (List Nat × Int)
  roundAt : WorkerId → Int
  claimedAt : Nat → Int

inductive TimedStep where
  | step (a : FleetStep)
  | look (w : WorkerId)
  | beat (w : WorkerId) (ctx : Ctx) (done seen : Bool)
  | tick (now : Int)

/-- The calls that are not a run's own: leases are extended by heartbeats, and `release_jobs` names
what its worker has taken out of its buffer. -/
def Fleet.mayCall (s : Fleet) : JobOp → Prop
  | .extendLease .. | .extendLeases .. => False
  | .releaseJobs ids w => ∀ r ∈ s.runs, r.worker = w → r.phase.underWay = true → r.job ∉ ids
  | _ => True

instance (s : Fleet) : DecidablePred s.mayCall := fun op ↦
  match op with
  | .releaseJobs ids w =>
      inferInstanceAs
        (Decidable (∀ r ∈ s.runs, r.worker = w → r.phase.underWay = true → r.job ∉ ids))
  | .extendLease .. | .extendLeases .. => inferInstanceAs (Decidable False)
  | .enqueue .. | .enqueueMany .. | .claimJobs .. | .deadLetterExpired _ | .recoverExpired _
  | .markSucceeded .. | .markFailed .. | .retryJob _ | .deleteCompletedJobs .. =>
      inferInstanceAs (Decidable True)

namespace TimedFleet

variable (p : Pace)

def claimTimes (s : TimedFleet) : FleetStep → Nat → Int
  | .claim ctx w lease batch _ => fun id ↦
      if id ∈ (s.fleet.jobs.claimJobs ctx w lease batch).2.map (·.1) then ctx.now
      else s.claimedAt id
  | _ => s.claimedAt

/-- The second half of a round: `done` says that the leases are extended, and `seen` that the reply
comes in.  Without live jobs there is nothing to do. -/
def beat (s : TimedFleet) (w : WorkerId) (ctx : Ctx) (done seen : Bool) : TimedFleet :=
  match s.reading w with
  | none => s
  | some (ids, readAt) =>
      { s with
        fleet := if done then s.fleet.call ⟨ctx, .extendLeases ids w (p.lease w)⟩ else s.fleet
        reading := Function.update s.reading w none
        roundAt :=
          if ids = [] ∨ done = true ∧ seen = true then Function.update s.roundAt w readAt
          else s.roundAt }

def next (s : TimedFleet) : TimedStep → TimedFleet
  | .step a => { s with fleet := s.fleet.next a, claimedAt := s.claimTimes a }
  | .look w =>
      { s with
        reading := Function.update s.reading w (some ((s.fleet.deadlines w).live s.now, s.now)) }
  | .beat w ctx done seen => s.beat p w ctx done seen
  | .tick now => { s with now := now }

/-- The transaction of a sweep may be older than the clock says, but a claim takes the time at which
it is made. -/
def mayTake (s : TimedFleet) : FleetStep → Prop
  | .call c => c.now ≤ s.now ∧ s.fleet.mayCall c.op
  | .claim ctx w lease _ _ => ctx.now = s.now ∧ lease = p.lease w
  | _ => True

instance (s : TimedFleet) : DecidablePred (s.mayTake p)
  | .call c => inferInstanceAs (Decidable (c.now ≤ s.now ∧ s.fleet.mayCall c.op))
  | .claim ctx w lease _ _ => inferInstanceAs (Decidable (ctx.now = s.now ∧ lease = p.lease w))
  | .hold _ | .take _ | .start .. | .raise _ | .succeed .. | .fail .. | .abandon _ | .finish _
  | .drain _ | .letGo _ | .crash _ => inferInstanceAs (Decidable True)

def enabled (s : TimedFleet) : TimedStep → Prop
  | .step a => s.fleet.enabled a ∧ s.mayTake p a
  | .look w => s.reading w = none
  | .beat w ctx _ _ => (s.reading w).isSome = true ∧ ctx.now = s.now
  | .tick now => s.now ≤ now

instance (s : TimedFleet) : DecidablePred (s.enabled p)
  | .step a => inferInstanceAs (Decidable (s.fleet.enabled a ∧ s.mayTake p a))
  | .look w => inferInstanceAs (Decidable (s.reading w = none))
  | .beat w ctx _ _ => inferInstanceAs (Decidable ((s.reading w).isSome = true ∧ ctx.now = s.now))
  | .tick now => inferInstanceAs (Decidable (s.now ≤ now))

def claimant : FleetStep → Option WorkerId
  | .claim _ w _ _ _ => some w
  | _ => none

/-- Time outruns neither the heartbeats nor the main loops. -/
def inTime (s : TimedFleet) (now : Int) (r : Run) : Prop :=
  now ≤ s.roundAt r.worker + p.within ∧ (r.phase = .claimed → now ≤ s.claimedAt r.job + p.grace)

/-- No process starts or leaves a run while it has a later claim of the job, no round finds a task
past its `max_execution_seconds`, and all are in time. -/
def punctual (s : TimedFleet) : TimedStep → Prop
  | .step a => s.fleet.notOverlapping a ∧ ∀ w ∈ claimant a, s.now ≤ s.roundAt w + p.within
  | .look w => ∀ r ∈ s.fleet.runs, r.worker = w → ∀ d ∈ r.phase.entry.join, s.now < d
  | .beat .. => True
  | .tick now => ∀ r ∈ s.fleet.runs, r.phase.underWay = true → s.inTime p now r

instance (s : TimedFleet) (now : Int) (r : Run) : Decidable (s.inTime p now r) :=
  inferInstanceAs (Decidable (_ ∧ (_ → _)))

instance (s : TimedFleet) : DecidablePred (s.punctual p)
  | .step a => inferInstanceAs (Decidable (s.fleet.notOverlapping a ∧ ∀ w ∈ claimant a, _ ≤ _))
  | .look w => inferInstanceAs
      (Decidable (∀ r ∈ s.fleet.runs, r.worker = w → ∀ d ∈ r.phase.entry.join, s.now < d))
  | .beat .. => inferInstanceAs (Decidable True)
  | .tick now => inferInstanceAs
      (Decidable (∀ r ∈ s.fleet.runs, r.phase.underWay = true → s.inTime p now r))

def start : TimedFleet := ⟨.start, 0, fun _ ↦ none, fun _ ↦ 0, fun _ ↦ 0⟩

end TimedFleet

def timedFleet (p : Pace) : System TimedFleet TimedStep :=
  .guarded (· = TimedFleet.start) (TimedFleet.enabled p) (TimedFleet.next p)

/-- What is left of a run's job that has succeeded and may have been deleted. -/
def Jobs.Over (t : Jobs) (id : Nat) : Prop :=
  id < t.nextId ∧ ∀ x, t.row id = some x → x.status = .succeeded

/-- The job is under a claim of the run's process, and its lease lasts until `u`. -/
def Jobs.HeldUntil (t : Jobs) (r : Run) (u : Int) : Prop :=
  ∃ x, t.row r.job = some x ∧ x.status = .running ∧ x.lockedBy = some r.worker ∧
    x.lockedUntil = some u

namespace JobOp

/-- The call ends the claim of `w`, if it has one. -/
def lets (id : Nat) (w : WorkerId) : JobOp → Prop
  | releaseJobs ids w' => w' = w ∧ id ∈ ids
  | markSucceeded id' w' => w' = w ∧ id' = id
  | markFailed id' w' .. => w' = w ∧ id' = id
  | _ => False

/-- The call is a beat of `w` for the job. -/
def extendsFor (id : Nat) (w : WorkerId) (lease : Int) (op : JobOp) : Prop :=
  op = extendLease id w lease ∨ ∃ ids, id ∈ ids ∧ op = extendLeases ids w lease

end JobOp

/-! ## What calls leave of a lease -/

section Calls

variable {t : Jobs} {c : Call} {r : Run} {u : Int}

theorem Jobs.HeldUntil.call (h : t.HeldUntil r u) (hnow : c.op.isSweep = true → c.now ≤ u)
    (hlets : ¬ c.op.lets r.job r.worker) :
    (c.run t).HeldUntil r u ∨
      ∃ lease, c.op.extendsFor r.job r.worker lease ∧
        (c.run t).HeldUntil r (c.now + seconds lease) := by
  obtain ⟨x, hx, hs, hw, hu⟩ := h
  have hid : x.id = r.job := row_id hx
  have hchange := c.run_row t r.job
  rw [hx] at hchange
  have hlive (hsweep : c.op.isSweep = true) : ¬ x.expired c.now := by
    rw [Job.expired_iff]
    rintro ⟨-, v, hv, hlt⟩
    obtain rfl := Option.some.inj (hu.symm.trans hv)
    exact absurd hlt (hnow hsweep).not_gt
  have hholder {w : WorkerId} (hheld : x.heldBy w) : w = r.worker :=
    Option.some.inj ((Job.heldBy_iff.mp hheld).1.symm.trans hw)
  generalize hrow : (c.run t).row r.job = o at hchange
  cases hchange with
  | same => exact Or.inl ⟨x, hrow, hs, hw, hu⟩
  | claimed hop hdue => cases (Job.due_iff.mp hdue).1.symm.trans hs
  | @extended _ w lease hop hheld =>
      obtain rfl := hholder hheld
      rw [hid] at hop
      exact Or.inr ⟨lease, hop, _, hrow, hs, hw, rfl⟩
  | deadLettered hop hexp | recovered hop hexp => exact absurd hexp (hlive (by rw [hop]; rfl))
  | @released _ ids w hop hmem hheld =>
      rw [hop] at hlets
      exact absurd ⟨hholder hheld, hid ▸ hmem⟩ hlets
  | succeeded hop hheld | failed hop hheld =>
      rw [hop] at hlets
      exact absurd ⟨hholder hheld, hid⟩ hlets
  | retried hop hdead => cases hdead.symm.trans hs
  | purged hop hfin =>
      rcases (Job.finishedBefore_iff.mp hfin).1 with hdone | hdone <;> cases hdone.symm.trans hs

-- A beat extends the leases that it names, if its process holds them.
theorem Jobs.HeldUntil.beat (h : t.HeldUntil r u) (ctx : Ctx) (ids : List Nat) (w : WorkerId)
    (lease : Int) :
    ∃ u', (Call.run ⟨ctx, .extendLeases ids w lease⟩ t).HeldUntil r u' ∧
      (u' = ctx.now + seconds lease ∧ r.worker = w ∨ u' = u ∧ ¬ (r.worker = w ∧ r.job ∈ ids)) := by
  by_cases hnamed : r.worker = w ∧ r.job ∈ ids
  · obtain ⟨rfl, hmem⟩ := hnamed
    obtain ⟨row, hrow, hs, hlw, -⟩ := h
    have hnew := row_updateHeld_of_heldBy hrow hmem (Job.heldBy_iff.mpr ⟨hlw, hs⟩)
      (.extend (ctx.now + seconds lease))
    exact ⟨_, ⟨_, hnew, hs, hlw, rfl⟩, Or.inl ⟨rfl, rfl⟩⟩
  · rcases h.call (c := ⟨ctx, .extendLeases ids w lease⟩) nofun id with hsame | ⟨lease', hop, -⟩
    · exact ⟨u, hsame, Or.inr ⟨rfl, hnamed⟩⟩
    · rcases hop with hop | ⟨ids', hmem, hop⟩ <;> cases hop
      exact absurd ⟨rfl, hmem⟩ hnamed

theorem Jobs.Over.call {id : Nat} (h : t.Over id) (c : Call) : (c.run t).Over id := by
  obtain ⟨hlt, hrow⟩ := c.run_of_lt h.1
  refine ⟨hlt, fun x' hx' ↦ ?_⟩
  cases hx : t.row id with
  | none => cases (hrow hx).symm.trans hx'
  | some x =>
      have hs := h.2 x hx
      have hchange := c.run_row t id
      rw [hx, hx'] at hchange
      cases hchange with
      | same => exact hs
      | claimed hop hdue => cases (Job.due_iff.mp hdue).1.symm.trans hs
      | extended hop hheld | released hop hmem hheld | succeeded hop hheld | failed hop hheld =>
          cases (Job.heldBy_iff.mp hheld).2.symm.trans hs
      | deadLettered hop hexp | recovered hop hexp =>
          cases (Job.expired_iff.mp hexp).1.symm.trans hs
      | retried hop hdead => cases hdead.symm.trans hs

end Calls

/-! ## What the heartbeats keep -/

namespace TimedFleet

variable {p : Pace} {s : TimedFleet} {r : Run}

/-- A lease until `u` outlasts the next round that succeeds: the jobs of a round under way get a new
lease, the others have one that is long enough. -/
def Outlasts (p : Pace) (s : TimedFleet) (r : Run) (u : Int) : Prop :=
  if r.phase = .claimed then s.claimedAt r.job + seconds (p.lease r.worker) ≤ u
  else s.roundAt r.worker + p.within ≤ u ∧
    ∀ ids readAt, s.reading r.worker = some (ids, readAt) → r.job ∉ ids → readAt + p.within ≤ u

structure Kept (p : Pace) (s : TimedFleet) : Prop where
  latest : ∀ r ∈ s.fleet.runs, r.phase.underWay = true → s.fleet.isLatest r
  leased : ∀ r ∈ s.fleet.runs, r.phase.underWay = true →
    (∃ u, s.fleet.jobs.HeldUntil r u ∧ s.Outlasts p r u) ∨
      Fleet.isFailing r.phase = true ∧ s.fleet.jobs.Over r.job
  timed : ∀ r ∈ s.fleet.runs, r.phase.underWay = true → s.inTime p s.now r
  claimed : ∀ r ∈ s.fleet.runs, r.phase = .claimed → s.claimedAt r.job ≤ s.now
  round : ∀ w, s.roundAt w ≤ s.now
  reading : ∀ w ids readAt, s.reading w = some (ids, readAt) →
    s.roundAt w ≤ readAt ∧ readAt ≤ s.now

-- A claimed batch is held before the round that it waits for has to succeed.
theorem Kept.outlasts_of_claimed (h : s.Kept p) (hr : r ∈ s.fleet.runs)
    (hphase : r.phase = .claimed) {u : Int} (hu : s.Outlasts p r u) : s.now + p.within ≤ u := by
  rw [Outlasts, if_pos hphase] at hu
  have hgrace := (h.timed r hr (by rw [hphase]; rfl)).2 hphase
  have hfits := p.fits r.worker
  omega

theorem Kept.now_le (h : s.Kept p) (hr : r ∈ s.fleet.runs) (hway : r.phase.underWay = true)
    {u : Int} (hu : s.Outlasts p r u) : s.now ≤ u := by
  by_cases hphase : r.phase = .claimed
  · have hlong := h.outlasts_of_claimed hr hphase hu
    omega
  · rw [Outlasts, if_neg hphase] at hu
    have hround := (h.timed r hr hway).1
    omega

-- A run that follows one of `s` in its phases, with the times as they are.
theorem Kept.of_runs {t : TimedFleet} (h : s.Kept p) (hjobs : t.fleet.jobs = s.fleet.jobs)
    (hclaims : t.fleet.claimants = s.fleet.claimants) (hnow : t.now = s.now)
    (hreading : t.reading = s.reading) (hround : t.roundAt = s.roundAt)
    (hclaimed : t.claimedAt = s.claimedAt)
    (hruns : ∀ r ∈ t.fleet.runs, r.phase.underWay = true → ∃ x ∈ s.fleet.runs,
      x.phase.underWay = true ∧ r.worker = x.worker ∧ r.key = x.key ∧
        (r.phase = .claimed → x.phase = .claimed) ∧
        (Fleet.isFailing x.phase = true → Fleet.isFailing r.phase = true)) : t.Kept p where
  latest r hr hway := by
    obtain ⟨x, hx, hxway, hw, hk, -⟩ := hruns r hr hway
    obtain ⟨hj, hc⟩ := Prod.mk.inj hk
    have hlast : x.claim + 1 = (s.fleet.claimants x.job).length := h.latest x hx hxway
    rw [Fleet.isLatest, hclaims, hj, hc]
    exact hlast
  leased r hr hway := by
    obtain ⟨x, hx, hxway, hw, hk, hphase, hfailing⟩ := hruns r hr hway
    obtain ⟨hj, -⟩ := Prod.mk.inj hk
    rcases h.leased x hx hxway with ⟨u, hheld, hlasts⟩ | ⟨hxf, hover⟩
    · refine Or.inl ⟨u, ?_, ?_⟩
      · rw [hjobs]
        obtain ⟨row, hrow, hs, hlw, hu⟩ := hheld
        exact ⟨row, by rw [hj]; exact hrow, hs, by rw [hw]; exact hlw, hu⟩
      · by_cases hrp : r.phase = .claimed
        · rw [Outlasts, if_pos (hphase hrp)] at hlasts
          rw [Outlasts, if_pos hrp, hclaimed, hj, hw]
          exact hlasts
        · rw [Outlasts, if_neg hrp, hround, hreading, hj, hw]
          by_cases hxp : x.phase = .claimed
          · have hlong := h.outlasts_of_claimed hx hxp hlasts
            refine ⟨?_, fun ids readAt hread _ ↦ ?_⟩
            · have hpast := h.round x.worker
              omega
            · have hpast := (h.reading x.worker ids readAt hread).2
              omega
          · rw [Outlasts, if_neg hxp] at hlasts
            exact hlasts
    · exact Or.inr ⟨hfailing hxf, by rw [hjobs, hj]; exact hover⟩
  timed r hr hway := by
    obtain ⟨x, hx, hxway, hw, hk, hphase, -⟩ := hruns r hr hway
    obtain ⟨hj, -⟩ := Prod.mk.inj hk
    obtain ⟨hle, hgrace⟩ := h.timed x hx hxway
    refine ⟨?_, fun hrp ↦ ?_⟩
    · rw [hnow, hround, hw]
      exact hle
    · rw [hnow, hclaimed, hj]
      exact hgrace (hphase hrp)
  claimed r hr hrp := by
    obtain ⟨x, hx, hxway, hw, hk, hphase, -⟩ := hruns r hr (by rw [hrp]; rfl)
    obtain ⟨hj, -⟩ := Prod.mk.inj hk
    rw [hclaimed, hnow, hj]
    exact h.claimed x hx (hphase hrp)
  round w := by
    rw [hround, hnow]
    exact h.round w
  reading w ids readAt hread := by
    rw [hround, hnow]
    exact h.reading w ids readAt (hreading ▸ hread)

-- A call that no worker makes for a run under way.
theorem Kept.call (h : s.Kept p) {c : Call} (hnow : c.op.isSweep = true → c.now ≤ s.now)
    (hlets : ∀ r ∈ s.fleet.runs, r.phase.underWay = true → ¬ c.op.lets r.job r.worker)
    (hextends : ∀ id w lease, ¬ c.op.extendsFor id w lease) :
    { s with fleet := s.fleet.call c }.Kept p where
  latest := h.latest
  leased r hr hway := by
    rcases h.leased r hr hway with ⟨u, hheld, hlasts⟩ | ⟨hfailing, hover⟩
    · have hle := h.now_le hr hway hlasts
      rcases hheld.call (fun hsweep ↦ (hnow hsweep).trans hle) (hlets r hr hway) with
        hheld | ⟨lease, hop, -⟩
      · exact Or.inl ⟨u, hheld, hlasts⟩
      · exact absurd hop (hextends _ _ _)
    · exact Or.inr ⟨hfailing, hover.call c⟩
  timed := h.timed
  claimed := h.claimed
  round := h.round
  reading := h.reading

-- Other runs may join, if they are leased and in time.
theorem Kept.of_more (h : s.Kept p) (runs : List Run)
    (hruns : ∀ r ∈ runs, r ∈ s.fleet.runs ∨ s.fleet.isLatest r ∧
      ((∃ u, s.fleet.jobs.HeldUntil r u ∧ s.Outlasts p r u) ∨
        Fleet.isFailing r.phase = true ∧ s.fleet.jobs.Over r.job) ∧
      s.inTime p s.now r ∧ (r.phase = .claimed → s.claimedAt r.job ≤ s.now)) :
    { s with fleet := { s.fleet with runs := runs } }.Kept p where
  latest r hr hway := by
    rcases hruns r hr with hr | ⟨hlast, -⟩
    · exact h.latest r hr hway
    · exact hlast
  leased r hr hway := by
    rcases hruns r hr with hr | ⟨-, hleased, -⟩
    · exact h.leased r hr hway
    · exact hleased
  timed r hr hway := by
    rcases hruns r hr with hr | ⟨-, -, htimed, -⟩
    · exact h.timed r hr hway
    · exact htimed
  claimed r hr hphase := by
    rcases hruns r hr with hr | ⟨-, -, -, hclaimed⟩
    · exact h.claimed r hr hphase
    · exact hclaimed hphase
  round := h.round
  reading := h.reading

-- Two runs of one job that are under way are one run.
theorem Kept.claim_eq (h : s.Kept p) {x : Run} (hr : r ∈ s.fleet.runs) (hx : x ∈ s.fleet.runs)
    (hrway : r.phase.underWay = true) (hxway : x.phase.underWay = true) (hjob : x.job = r.job) :
    x.key = r.key := by
  have hrlast : r.claim + 1 = (s.fleet.claimants r.job).length := h.latest r hr hrway
  have hxlast : x.claim + 1 = (s.fleet.claimants x.job).length := h.latest x hx hxway
  rw [hjob] at hxlast
  exact Prod.ext hjob (Nat.succ.inj (hxlast.trans hrlast.symm))

-- The runs after one of them has got a phase that is not `claimed`.
theorem Kept.setPhase (h : s.Kept p) (hrec : s.fleet.Recorded) (hr : r ∈ s.fleet.runs)
    (hway : r.phase.underWay = true) {phase : Phase} (hnew : phase ≠ .claimed)
    (hfailing : phase.underWay = true → Fleet.isFailing r.phase = true →
      Fleet.isFailing phase = true) :
    { s with fleet := s.fleet.setPhase r phase }.Kept p := by
  refine h.of_runs rfl rfl rfl rfl rfl rfl fun x hx hxway ↦ ?_
  obtain ⟨y, hy, ⟨hk, rfl⟩ | ⟨-, rfl⟩⟩ := Fleet.mem_setPhase hx
  · have hw : y.worker = r.worker := hrec.worker_eq hr hy hk
    exact ⟨r, hr, hway, hw, hk, fun hphase ↦ absurd hphase hnew, hfailing hxway⟩
  · exact ⟨x, hy, hxway, rfl, rfl, id, id⟩

-- A run that is under way writes its outcome, and has ended.
theorem Kept.settle (h : s.Kept p) (hrec : s.fleet.Recorded) (hr : r ∈ s.fleet.runs)
    (hway : r.phase.underWay = true) {c : Call}
    (hop : c.op = .markSucceeded r.job r.worker ∨ ∃ error permanent maxAttempts draw,
      c.op = .markFailed r.job r.worker error permanent maxAttempts draw) :
    { s with fleet := (s.fleet.call c).setPhase r .settled }.Kept p := by
  have hsettled : { s with fleet := s.fleet.setPhase r .settled }.Kept p :=
    h.setPhase hrec hr hway (by decide) fun hway ↦ absurd hway (by decide)
  refine hsettled.call ?_ (fun x hx hxway hlets ↦ ?_) ?_
  · intro hsweep
    rcases hop with hop | ⟨error, permanent, maxAttempts, draw, hop⟩ <;>
      · rw [hop] at hsweep
        cases hsweep
  · -- another run of the job would be this one
    have hjob : r.job = x.job := by
      rcases hop with hop | ⟨error, permanent, maxAttempts, draw, hop⟩ <;>
        exact (hop ▸ hlets).2
    obtain ⟨y, hy, ⟨-, rfl⟩ | ⟨hne, rfl⟩⟩ := Fleet.mem_setPhase hx
    · cases hxway
    · exact hne (h.claim_eq hr hy hway hxway hjob.symm)
  · intro id w lease hextends
    rcases hop with hop | ⟨error, permanent, maxAttempts, draw, hop⟩ <;>
      · rw [hop] at hextends
        rcases hextends with heq | ⟨ids, -, heq⟩ <;> cases heq

-- `mark_succeeded` of a run whose lease is kept, also if its reply is lost.
theorem Kept.succeed (h : s.Kept p) (hrec : s.fleet.Recorded) (hr : r ∈ s.fleet.runs)
    (hexec : Fleet.isExecuting r.phase = true) (ctx : Ctx) (seen : Bool) :
    { s with fleet := s.fleet.next (.succeed r ctx seen) }.Kept p := by
  have hway := Phase.underWay_of_executing hexec
  have hdone := h.settle hrec hr hway (c := ⟨ctx, .markSucceeded r.job r.worker⟩) (Or.inl rfl)
  cases seen with
  | true => exact hdone
  | false =>
      refine hdone.of_more (s.fleet.setPhase r _).runs fun x hx ↦ ?_
      obtain ⟨y, hy, ⟨hk, rfl⟩ | ⟨hne, rfl⟩⟩ := Fleet.mem_setPhase hx
      · -- the run itself, whose job is over
        obtain ⟨hj, hc⟩ := Prod.mk.inj hk
        have hw : y.worker = r.worker := hrec.worker_eq hr hy hk
        have hlast : r.claim + 1 = (s.fleet.claimants r.job).length := h.latest r hr hway
        refine Or.inr ⟨?_, Or.inr ⟨rfl, ?_⟩, ⟨?_, fun hphase ↦ ?_⟩, fun hphase ↦ ?_⟩
        · change y.claim + 1 = (s.fleet.claimants y.job).length
          rw [hj, hc]
          exact hlast
        · rcases h.leased r hr hway with ⟨u, ⟨row, hrow, hs, hlw, -⟩, -⟩ | ⟨hfailing, -⟩
          · have hheld : row.heldBy r.worker := Job.heldBy_iff.mpr ⟨hlw, hs⟩
            have hnew := Jobs.row_updateHeld_of_heldBy hrow (List.mem_singleton_self _) hheld
              (.succeed ctx.now)
            change Jobs.Over (Call.run ⟨ctx, .markSucceeded r.job r.worker⟩ s.fleet.jobs) y.job
            rw [hj]
            refine ⟨(Call.run_of_lt _ (Jobs.row_lt hrow)).1, fun x hx ↦ ?_⟩
            obtain rfl := Option.some.inj (hnew.symm.trans hx)
            rfl
          · cases hp : r.phase with
            | executing deadline => rw [hp] at hfailing; cases hfailing
            | _ => rw [hp] at hexec; cases hexec
        · change s.now ≤ s.roundAt y.worker + p.within
          rw [hw]
          exact (h.timed r hr hway).1
        · cases hphase
        · cases hphase
      · left
        refine List.mem_map.mpr ⟨x, hy, ?_⟩
        rw [if_neg (by simpa using hne)]

-- A claim takes no job of a run under way, and the jobs that it takes have fresh leases.
theorem Kept.claim (h : s.Kept p) {ctx : Ctx} {w : WorkerId} {batch : Nat} {seen : Bool}
    (hctx : ctx.now = s.now) (hround : s.now ≤ s.roundAt w + p.within) :
    (s.next p (.step (.claim ctx w (p.lease w) batch seen))).Kept p := by
  -- what is claimed was pending
  have hpending {x : Run} (hx : x ∈ s.fleet.runs) (hway : x.phase.underWay = true) :
      x.job ∉ (s.fleet.jobs.claimJobs ctx w (p.lease w) batch).2.map (·.1) ∧
        (s.fleet.jobs.claimJobs ctx w (p.lease w) batch).1.row x.job = s.fleet.jobs.row x.job := by
    rcases Jobs.claimJobs_returned s.fleet.jobs x.job ctx w (p.lease w) batch with
      hsame | ⟨-, row, hrow, hdue, -⟩
    · exact hsame
    · have hs := (Job.due_iff.mp hdue).1
      rcases h.leased x hx hway with ⟨u, ⟨row', hrow', hs', -⟩, -⟩ | ⟨-, hover⟩
      · obtain rfl := Option.some.inj (hrow.symm.trans hrow')
        cases hs.symm.trans hs'
      · cases hs.symm.trans (hover.2 row hrow)
  have hold : (s.next p (.step (.claim ctx w (p.lease w) batch false))).Kept p := by
    refine ⟨fun r hr hway ↦ ?_, fun r hr hway ↦ ?_, fun r hr hway ↦ ?_, fun r hr hphase ↦ ?_,
      h.round, h.reading⟩
    · obtain ⟨hid, -⟩ := hpending hr hway
      have hlast := h.latest r hr hway
      simp only [next, Fleet.next, Fleet.isLatest, Fleet.claim, if_neg hid]
      exact hlast
    · obtain ⟨hid, hrow⟩ := hpending hr hway
      rcases h.leased r hr hway with ⟨u, hheld, hlasts⟩ | ⟨hfailing, hover⟩
      · refine Or.inl ⟨u, ?_, ?_⟩
        · obtain ⟨row, hrow', hrest⟩ := hheld
          exact ⟨row, hrow.trans hrow', hrest⟩
        · simp only [next, Outlasts, claimTimes, if_neg hid]
          exact hlasts
      · exact Or.inr ⟨hfailing, hover.1, fun x hx ↦ hover.2 x (hrow.symm.trans hx)⟩
    · obtain ⟨hid, -⟩ := hpending hr hway
      simp only [next, inTime, claimTimes, if_neg hid]
      exact h.timed r hr hway
    · obtain ⟨hid, -⟩ := hpending hr (by rw [hphase]; rfl)
      simp only [next, claimTimes, if_neg hid]
      exact h.claimed r hr hphase
  refine hold.of_more (s.fleet.claim ctx w (p.lease w) batch seen).runs fun r hr ↦ ?_
  rcases Fleet.mem_claim_runs hr with hr | ⟨id, hid, rfl⟩
  · exact Or.inl hr
  · have htime : (s.next p (.step (.claim ctx w (p.lease w) batch false))).claimedAt id =
        s.now := by
      simp only [next, claimTimes, if_pos hid, hctx]
    refine Or.inr ⟨?_, Or.inl ⟨s.now + seconds (p.lease w), ?_, ?_⟩, ⟨hround, fun _ ↦ ?_⟩,
      fun _ ↦ htime.le⟩
    · simp only [next, Fleet.next, Fleet.isLatest, Fleet.claim, if_pos hid, List.length_append,
        List.length_singleton]
    · rcases Jobs.claimJobs_returned s.fleet.jobs id ctx w (p.lease w) batch with
        ⟨hnot, -⟩ | ⟨-, row, -, -, -, hnew⟩
      · exact absurd hid hnot
      · exact ⟨_, hnew, rfl, rfl, by rw [← hctx]; rfl⟩
    · rw [Outlasts, if_pos rfl, htime]
    · rw [htime]
      change s.now ≤ s.now + p.grace
      omega

-- What a lease was good for before a round, it is good for after it.
theorem Outlasts.beat {t : TimedFleet} {w : WorkerId} {ids : List Nat} {readAt u : Int}
    (h : s.Outlasts p r u) (hread : s.reading w = some (ids, readAt))
    (hreading : t.reading = Function.update s.reading w none) (hclaimed : t.claimedAt = s.claimedAt)
    (hround : t.roundAt = s.roundAt ∨ t.roundAt = Function.update s.roundAt w readAt ∧
      ¬ (r.worker = w ∧ r.job ∈ ids)) : t.Outlasts p r u := by
  unfold Outlasts at h ⊢
  split
  · rename_i hphase
    rw [if_pos hphase] at h
    rw [hclaimed]
    exact h
  · rename_i hphase
    rw [if_neg hphase] at h
    obtain ⟨hle, hlater⟩ := h
    by_cases hw : r.worker = w
    · refine ⟨?_, fun ids' readAt' hread' ↦ ?_⟩
      · rcases hround with hround | ⟨hround, hnot⟩
        · rw [hround]
          exact hle
        · -- it has been held since the map was read
          rw [hround, hw, Function.update_self]
          exact hlater ids readAt (hw ▸ hread) fun hmem ↦ hnot ⟨hw, hmem⟩
      · rw [hreading, hw, Function.update_self] at hread'
        cases hread'
    · have hsame : t.roundAt r.worker = s.roundAt r.worker := by
        rcases hround with hround | ⟨hround, -⟩
        · rw [hround]
        · rw [hround, Function.update_of_ne hw]
      rw [hsame, hreading, Function.update_of_ne hw]
      exact ⟨hle, hlater⟩

-- A lease that a beat has extended is good for the next round.
theorem Kept.outlasts_extended {t : TimedFleet} {w : WorkerId} (h : s.Kept p)
    (hr : r ∈ s.fleet.runs) (hw : r.worker = w) (hreading : t.reading w = none)
    (hclaimed : t.claimedAt = s.claimedAt) (hround : t.roundAt w ≤ s.now) :
    t.Outlasts p r (s.now + seconds (p.lease w)) := by
  subst hw
  have hfits := p.fits r.worker
  unfold Outlasts
  split
  · rename_i hphase
    have hpast := h.claimed r hr hphase
    rw [hclaimed]
    omega
  · refine ⟨by omega, fun ids readAt hread ↦ ?_⟩
    cases hreading.symm.trans hread

-- A round that succeeds vouches for the leases that it has extended and for those made since it
-- read the map; one that fails vouches for nothing.
theorem Kept.beat (h : s.Kept p) {w : WorkerId} {ctx : Ctx} (hctx : ctx.now = s.now)
    (done seen : Bool) : (s.beat p w ctx done seen).Kept p := by
  unfold TimedFleet.beat
  cases hread : s.reading w with
  | none => exact h
  | some round =>
      obtain ⟨ids, readAt⟩ := round
      obtain ⟨hafter, hbefore⟩ := h.reading w ids readAt hread
      dsimp only
      generalize hnext : (if ids = [] ∨ done = true ∧ seen = true then
        Function.update s.roundAt w readAt else s.roundAt) = roundAt
      have hcases : roundAt = s.roundAt ∨ roundAt = Function.update s.roundAt w readAt ∧
          (ids = [] ∨ done = true) := by
        rw [← hnext]
        split
        · rename_i hsuccess
          exact Or.inr ⟨rfl, hsuccess.imp_right And.left⟩
        · exact Or.inl rfl
      have hround (v : WorkerId) : s.roundAt v ≤ roundAt v ∧ roundAt v ≤ s.now ∧
          (v ≠ w → roundAt v = s.roundAt v) := by
        rcases hcases with rfl | ⟨rfl, -⟩
        · exact ⟨le_rfl, h.round v, fun _ ↦ rfl⟩
        · by_cases hv : v = w
          · rw [hv, Function.update_self]
            exact ⟨hafter, hbefore, fun hne ↦ absurd rfl hne⟩
          · rw [Function.update_of_ne hv]
            exact ⟨le_rfl, h.round v, fun _ ↦ rfl⟩
      refine ⟨?_, fun r hr hway ↦ ?_, fun r hr hway ↦ ?_, ?_, fun v ↦ (hround v).2.1, ?_⟩
      · cases done <;> exact h.latest
      · have hruns : r ∈ s.fleet.runs := by cases done <;> exact hr
        rcases h.leased r hruns hway with ⟨u, hheld, hlasts⟩ | ⟨hfailing, hover⟩
        · cases done with
          | false =>
              refine Or.inl ⟨u, hheld, hlasts.beat hread rfl rfl ?_⟩
              refine hcases.imp_right fun ⟨hnew, hempty⟩ ↦ ⟨hnew, fun hmem ↦ ?_⟩
              rw [hempty.resolve_right Bool.false_ne_true] at hmem
              cases hmem.2
          | true =>
              obtain ⟨u', hheld', ⟨hu', hw⟩ | ⟨rfl, hnot⟩⟩ := hheld.beat ctx ids w (p.lease w)
              · refine Or.inl ⟨u', hheld', ?_⟩
                rw [hu', hctx]
                exact h.outlasts_extended hruns hw (Function.update_self ..) rfl (hround w).2.1
              · exact Or.inl ⟨u', hheld', hlasts.beat hread rfl rfl
                  (hcases.imp_right fun hnew ↦ ⟨hnew.1, hnot⟩)⟩
        · refine Or.inr ⟨hfailing, ?_⟩
          cases done with
          | false => exact hover
          | true => exact hover.call _
      · have hruns : r ∈ s.fleet.runs := by cases done <;> exact hr
        obtain ⟨hle, hgrace⟩ := h.timed r hruns hway
        exact ⟨hle.trans (Int.add_le_add_right (hround r.worker).1 _), hgrace⟩
      · cases done <;> exact h.claimed
      · intro v ids' readAt' hread'
        dsimp only at hread' ⊢
        by_cases hv : v = w
        · rw [hv, Function.update_self] at hread'
          cases hread'
        · rw [Function.update_of_ne hv] at hread'
          rw [(hround v).2.2 hv]
          exact h.reading v ids' readAt' hread'

-- A round finds every job that it has to extend in the map.
theorem Kept.look (h : s.Kept p) (hcov : s.fleet.Covered) {w : WorkerId}
    (hceiling : ∀ r ∈ s.fleet.runs, r.worker = w → ∀ d ∈ r.phase.entry.join, s.now < d) :
    (s.next p (.look w)).Kept p := by
  refine ⟨h.latest, fun r hr hway ↦ ?_, h.timed, h.claimed, h.round, fun v ids readAt hread ↦ ?_⟩
  · rcases h.leased r hr hway with ⟨u, hheld, hlasts⟩ | hover
    · refine Or.inl ⟨u, hheld, ?_⟩
      by_cases hphase : r.phase = .claimed
      · rw [Outlasts, if_pos hphase] at hlasts ⊢
        exact hlasts
      · rw [Outlasts, if_neg hphase] at hlasts ⊢
        refine ⟨hlasts.1, fun ids readAt hread hnot ↦ ?_⟩
        by_cases hw : r.worker = w
        · simp only [next, hw, Function.update_self] at hread
          obtain ⟨rfl, -⟩ := Prod.mk.inj (Option.some.inj hread)
          obtain ⟨e, he⟩ : ∃ e, r.phase.entry = some e := by
            cases hp : r.phase with
            | claimed => exact absurd hp hphase
            | settled | unstarted => rw [hp] at hway; cases hway
            | ready | taken | executing _ | failing _ => exact ⟨_, rfl⟩
          have hin := hcov r hr (h.latest r hr hway) e he
          rw [hw] at hin
          refine absurd (Deadlines.mem_live hin fun d hd ↦ ?_) hnot
          exact hceiling r hr hw d (by rw [he, hd]; rfl)
        · simp only [next, Function.update_of_ne hw] at hread
          exact hlasts.2 ids readAt hread hnot
    · exact Or.inr hover
  · by_cases hv : v = w
    · simp only [next, hv, Function.update_self] at hread
      obtain ⟨-, rfl⟩ := Prod.mk.inj (Option.some.inj hread)
      exact ⟨h.round v, le_rfl⟩
    · simp only [next, Function.update_of_ne hv] at hread
      exact h.reading v ids readAt hread

theorem Kept.tick (h : s.Kept p) {now : Int} (hnow : s.now ≤ now)
    (hin : ∀ r ∈ s.fleet.runs, r.phase.underWay = true → s.inTime p now r) :
    (s.next p (.tick now)).Kept p where
  latest := h.latest
  leased := h.leased
  timed := hin
  claimed r hr hphase := (h.claimed r hr hphase).trans hnow
  round w := (h.round w).trans hnow
  reading w ids readAt hread :=
    ⟨(h.reading w ids readAt hread).1, (h.reading w ids readAt hread).2.trans hnow⟩

-- The maps have no part in it.
theorem Kept.setDeadlines {f : Fleet} (h : { s with fleet := f }.Kept p) (w : WorkerId)
    (m : Deadlines) : { s with fleet := f.setDeadlines w m }.Kept p :=
  ⟨h.latest, h.leased, h.timed, h.claimed, h.round, h.reading⟩

theorem Kept.of_subset (h : s.Kept p) (q : Run → Bool) :
    { s with fleet := s.fleet.without q }.Kept p :=
  h.of_runs rfl rfl rfl rfl rfl rfl fun r hr hway ↦
    ⟨r, (List.mem_filter.mp hr).1, hway, rfl, rfl, id, id⟩

theorem Kept.step (h : s.Kept p) (hrec : s.fleet.Recorded) {a : FleetStep}
    (ha : s.fleet.enabled a) (hmay : s.mayTake p a)
    (hround : ∀ w ∈ claimant a, s.now ≤ s.roundAt w + p.within) : (s.next p (.step a)).Kept p := by
  cases a with
  | call c =>
      obtain ⟨hnow, hmay⟩ := hmay
      obtain ⟨ctx, op⟩ := c
      refine h.call (fun _ ↦ hnow) (fun r hr hway hlets ↦ ?_) fun id w lease hextends ↦ ?_
      · cases op with
        | releaseJobs ids w => exact hmay r hr hlets.1.symm hway hlets.2
        | markSucceeded | markFailed => cases ha
        | _ => exact hlets
      · rcases hextends with hop | ⟨ids, -, hop⟩ <;>
          · obtain rfl := hop
            exact hmay
  | claim ctx w lease batch seen =>
      obtain ⟨hctx, rfl⟩ := hmay
      exact h.claim hctx (hround w rfl)
  | hold w =>
      let runs := updateRows (Fleet.inBatch w) ({ · with phase := .ready }) s.fleet.runs
      have hheld : { s with fleet := { s.fleet with runs := runs } }.Kept p := by
        refine h.of_runs rfl rfl rfl rfl rfl rfl fun r hr hway ↦ ?_
        obtain ⟨x, hx, ⟨hbatch, rfl⟩ | ⟨-, rfl⟩⟩ := mem_updateRows hr
        · rw [Fleet.inBatch, decide_eq_true_eq] at hbatch
          refine ⟨x, hx, by rw [hbatch.2]; rfl, rfl, rfl, fun hready ↦ ?_, fun hfailing ↦ ?_⟩
          · cases hready
          · rw [hbatch.2] at hfailing
            cases hfailing
        · exact ⟨r, hx, hway, rfl, rfl, id, id⟩
      exact hheld.setDeadlines w _
  | take r | drain r =>
      refine h.setPhase hrec ha.1 (by rw [ha.2]; rfl) (by decide) fun _ hfailing ↦ ?_
      rw [ha.2] at hfailing
      cases hfailing
  | start r monotonic maxExecution =>
      let phase := Phase.executing (monotonic + maxExecution)
      have hstarted : { s with fleet := s.fleet.setPhase r phase }.Kept p := by
        refine h.setPhase hrec ha.1 (by rw [ha.2]; rfl) (fun hph ↦ ?_) fun _ hfailing ↦ ?_
        · exact Phase.noConfusion hph
        · rw [ha.2] at hfailing
          cases hfailing
      exact hstarted.setDeadlines _ _
  | raise r =>
      refine h.setPhase hrec ha.1 ?_ (fun hph ↦ ?_) fun _ _ ↦ rfl
      · rcases ha.2 with hphase | hexec
        · rw [hphase]
          rfl
        · exact Phase.underWay_of_executing hexec
      · cases hph
  | succeed r ctx seen => exact h.succeed hrec ha.1 ha.2 ctx seen
  | fail r ctx error permanent maxAttempts draw =>
      exact h.settle hrec ha.1 (Phase.underWay_of_failing ha.2)
        (Or.inr ⟨error, permanent, maxAttempts, draw, rfl⟩)
  | abandon r =>
      exact h.setPhase hrec ha.1 (Phase.underWay_of_failing ha.2) (by decide)
        fun hway ↦ by cases hway
  | finish r => exact (h.of_subset _).setDeadlines _ _
  | letGo w => exact (h.of_subset _).setDeadlines _ _
  | crash w => exact (h.of_subset _).setDeadlines _ _

-- The map covers the runs of such a fleet.
theorem reachable_fleet (h : ((timedFleet p).restrict (punctual p)).Reachable s) :
    (DurableQueue.fleet.restrict Fleet.notOverlapping).Reachable s.fleet := by
  induction h with
  | init h =>
      obtain rfl : _ = TimedFleet.start := h
      exact .init rfl
  | @step s t a _ ha ih =>
      obtain ⟨hpunctual, henabled, rfl⟩ := ha
      cases a with
      | step a => exact ih.step (a := a) ⟨hpunctual.1, henabled.1, rfl⟩
      | look w => exact ih
      | tick now => exact ih
      | beat w ctx done seen =>
          change (DurableQueue.fleet.restrict _).Reachable (s.beat p w ctx done seen).fleet
          unfold TimedFleet.beat
          cases s.reading w with
          | none => exact ih
          | some round =>
              cases done with
              | false => exact ih
              | true =>
                  exact ih.step (a := .call ⟨ctx, .extendLeases round.1 w (p.lease w)⟩)
                    ⟨fun r hr ↦ absurd hr List.not_mem_nil, rfl, rfl⟩

theorem kept_of_reachable (h : ((timedFleet p).restrict (punctual p)).Reachable s) : s.Kept p := by
  have hknown (s : TimedFleet) (hs : ((timedFleet p).restrict (punctual p)).Reachable s) :
      s.fleet.Recorded ∧ s.fleet.Covered :=
    ⟨Fleet.recorded (reachable_fleet hs).of_restrict, Fleet.covered (reachable_fleet hs)⟩
  refine h.invariant_with hknown (fun s hs ↦ ?_) fun s a t ⟨hrec, hcov⟩ hkept ha ↦ ?_
  · obtain rfl : s = TimedFleet.start := hs
    exact ⟨nofun, nofun, nofun, nofun, fun _ ↦ le_rfl, nofun⟩
  · obtain ⟨hpunctual, henabled, rfl⟩ := ha
    cases a with
    | step a => exact hkept.step hrec henabled.1 henabled.2 hpunctual.2
    | look w => exact hkept.look hcov hpunctual
    | beat w ctx done seen => exact hkept.beat henabled.2 done seen
    | tick now => exact hkept.tick henabled hpunctual

end TimedFleet

open TimedFleet

/-- In a fleet that is in time, a job has one run under way at most.  That run's claim is the last
one of its job and its lease has not lapsed, so that its `mark_succeeded` counts, unless it has
counted already; and no process ever writes the outcome of a claim that it holds no more. -/
theorem punctual_fleet_excludes {p : Pace} {s : TimedFleet}
    (h : ((timedFleet p).restrict (punctual p)).Reachable s) :
    (∀ r ∈ s.fleet.runs, ∀ x ∈ s.fleet.runs, r.phase.underWay = true → x.phase.underWay = true →
      x.job = r.job → x.worker = r.worker ∧ x.claim = r.claim) ∧
    (∀ r ∈ s.fleet.runs, r.phase.underWay = true →
      (∃ u, s.fleet.jobs.HeldUntil r u ∧ s.now ≤ u ∧ s.fleet.isCurrent r ∧
        ∀ ctx, ∃ x, (s.fleet.next (.succeed r ctx true)).jobs.row r.job = some x ∧
          x.status = .succeeded) ∨
        Fleet.isFailing r.phase = true ∧ s.fleet.jobs.Over r.job) ∧
    ∀ a, s.fleet.enabled a → notReclaimed s.fleet a := by
  have hkept := kept_of_reachable h
  have hrec := Fleet.recorded (reachable_fleet h).of_restrict
  refine ⟨fun r hr x hx hrway hxway hjob ↦ ?_, fun r hr hway ↦ ?_, fun a ha r hout ↦ ?_⟩
  · have hkey := hkept.claim_eq hr hx hrway hxway hjob
    exact ⟨hrec.worker_eq hr hx hkey, congrArg Prod.snd hkey⟩
  · rcases hkept.leased r hr hway with ⟨u, hheld, hlasts⟩ | hover
    · refine Or.inl ⟨u, hheld, hkept.now_le hr hway hlasts, ?_, fun ctx ↦ ?_⟩
      · obtain ⟨row, hrow, hs, hw, -⟩ := hheld
        exact ⟨hkept.latest r hr hway, row, hrow, hs, hw⟩
      · obtain ⟨row, hrow, hs, hw, -⟩ := hheld
        exact ⟨_, Jobs.row_updateHeld_of_heldBy hrow (List.mem_singleton_self _)
          (Job.heldBy_iff.mpr ⟨hw, hs⟩) (.succeed ctx.now), rfl⟩
    · exact Or.inr hover
  · -- whoever writes an outcome is under way, and nobody has claimed the job since
    have hway : r ∈ s.fleet.runs ∧ r.phase.underWay = true := by
      cases a with
      | succeed x ctx seen =>
          cases hout
          exact ⟨ha.1, Phase.underWay_of_executing ha.2⟩
      | fail x ctx error permanent maxAttempts draw =>
          cases hout
          exact ⟨ha.1, Phase.underWay_of_failing ha.2⟩
      | _ => cases hout
    have hlast : r.claim + 1 = (s.fleet.claimants r.job).length :=
      hkept.latest r hway.1 hway.2
    rw [hlast, List.drop_length]
    exact List.not_mem_nil

/-- A lease of thirty seconds, and rounds every ten. -/
def everyTenSeconds : Pace := ⟨fun _ ↦ 30, 21000000, 9000000, fun _ ↦ by decide⟩

/-- One round fails, the next one succeeds, and a sweep after the first lease finds the job held. -/
def failedBeat : List TimedStep :=
  [.step (.call ⟨.alone 0, .enqueue "t" "" none⟩), .step (.claim (.alone 0) "w" 30 1 true),
    .step (.hold "w"), .step (.take ⟨"w", 1, 0, .ready⟩),
    .step (.start ⟨"w", 1, 0, .taken⟩ 0 300000000), .tick 10000000, .look "w",
    .beat "w" (.alone 10000000) false false, .tick 20000000, .look "w",
    .beat "w" (.alone 20000000) true true, .tick 35000000,
    .step (.call ⟨.alone 35000000, .recoverExpired 100⟩)]

theorem punctual_fleet_excludes_afterFailedBeat :
    ∃ (s : TimedFleet) (u : Int), s.now = 35000000 ∧
      s.fleet.jobs.HeldUntil ⟨"w", 1, 0, .executing 300000000⟩ u ∧ s.now ≤ u ∧
      ∃ x, (s.fleet.next
        (.succeed ⟨"w", 1, 0, .executing 300000000⟩ (.alone 36000000) true)).jobs.row 1 = some x ∧
        x.status = .succeeded := by
  have hreach : ((timedFleet everyTenSeconds).restrict (punctual everyTenSeconds)).Reachable
      (failedBeat.foldl (TimedFleet.next everyTenSeconds) .start) :=
    System.reachable_restrict_of_play rfl failedBeat rfl
  obtain ⟨-, hleased, -⟩ := punctual_fleet_excludes hreach
  rcases hleased ⟨"w", 1, 0, .executing 300000000⟩ (by decide) rfl with
    ⟨u, hheld, hle, -, hdone⟩ | ⟨hfailing, -⟩
  · exact ⟨_, u, rfl, hheld, hle, hdone _⟩
  · cases hfailing

end DurableQueue
