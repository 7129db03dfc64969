import DurableQueue.Worker.Fencing

/-!
# Coverage

The heartbeat map is keyed by job, so two runs of one job in one process share an entry.  As long
as no run starts or ends while its process holds a later claim of the same job, every held claim
that is still the job's current one has its own entry, and the next beat extends it.
-/

open Reasoning

namespace DurableQueue

namespace Fleet

/-- The claim of `r` is the last one made of its job. -/
def isLatest (s : Fleet) (r : Run) : Prop := r.claim + 1 = (s.claimants r.job).length

/-- The runs on whose behalf a step writes to its heartbeat map, the main loop's `hold` apart. -/
def writers (s : Fleet) : FleetStep → List Run
  | .start r _ _ => [r]
  | .finish r => [r]
  | .letGo w => s.runs.filter (isUnstarted w)
  | _ => []

/-- Nobody starts, finishes or gives up a run while its process holds a later claim of the job. -/
def notOverlapping (s : Fleet) (a : FleetStep) : Prop :=
  ∀ r ∈ s.writers a, ∀ x ∈ s.runs, x.worker = r.worker → x.job = r.job → r.claim < x.claim →
    x.phase.entry = none

instance (s : Fleet) (a : FleetStep) : Decidable (s.notOverlapping a) :=
  inferInstanceAs (Decidable (∀ r ∈ s.writers a, _))

/-- The batch that a main loop has not held yet is newer than its other runs of the same jobs. -/
def Fresh (s : Fleet) : Prop :=
  ∀ b ∈ s.runs, b.phase = .claimed → ∀ r ∈ s.runs, r.worker = b.worker → r.job = b.job →
    r.phase = .claimed ∨ r.claim < b.claim

def Covered (s : Fleet) : Prop :=
  ∀ r ∈ s.runs, s.isLatest r → ∀ d, r.phase.entry = some d →
    (s.deadlines r.worker).lookup r.job = some d

variable {s : Fleet}

theorem Recorded.claim_lt (h : s.Recorded) {r : Run} (hr : r ∈ s.runs) :
    r.claim < (s.claimants r.job).length :=
  (List.getElem?_eq_some_iff.mp (h.claimed r hr)).1

-- A claim number belongs to one process.
theorem Recorded.worker_eq (h : s.Recorded) {r x : Run} (hr : r ∈ s.runs) (hx : x ∈ s.runs)
    (hk : x.key = r.key) : x.worker = r.worker := by
  have hxc := h.claimed x hx
  rw [show x.job = r.job from congrArg Prod.fst hk,
    show x.claim = r.claim from congrArg Prod.snd hk, h.claimed r hr] at hxc
  exact (Option.some.inj hxc).symm

-- A run of a job whose claim is not the run's own is later than the run, if it is the latest.
theorem Recorded.lt_of_isLatest (h : s.Recorded) {r x : Run} (hr : r ∈ s.runs)
    (hx : s.isLatest x) (hj : x.job = r.job) (hk : x.key ≠ r.key) : r.claim < x.claim := by
  have hlt := h.claim_lt hr
  have hlast : x.claim + 1 = (s.claimants r.job).length := hj ▸ hx
  have hne : x.claim ≠ r.claim := fun hc ↦ hk (Prod.ext hj hc)
  omega

/-! ## The batch in hand -/

theorem mem_setPhase {r : Run} {phase : Phase} {x : Run} (h : x ∈ (s.setPhase r phase).runs) :
    ∃ y ∈ s.runs, (y.key = r.key ∧ x = { y with phase := phase }) ∨ (y.key ≠ r.key ∧ x = y) := by
  obtain ⟨y, hy, hcase⟩ := mem_updateRows h
  rw [decide_eq_true_eq, decide_eq_false_iff_not] at hcase
  exact ⟨y, hy, hcase⟩

theorem Fresh.setPhase (h : s.Fresh) {r : Run} (hr : r ∈ s.runs) (hold : r.phase ≠ .claimed)
    (hrec : s.Recorded) {phase : Phase} (hnew : phase ≠ .claimed) : (s.setPhase r phase).Fresh := by
  intro b hb hbc x hx hw hj
  obtain ⟨b', hb', ⟨-, rfl⟩ | ⟨hbk, rfl⟩⟩ := mem_setPhase hb
  · exact absurd hbc hnew
  · obtain ⟨y, hy, ⟨hyk, rfl⟩ | ⟨-, rfl⟩⟩ := mem_setPhase hx
    · -- `x` has the key of `r`, which was not in hand
      right
      have hrw : r.worker = b.worker := (hrec.worker_eq hr hy hyk).symm.trans hw
      have hrj : r.job = b.job := (congrArg Prod.fst hyk).symm.trans hj
      have hrb := (h b hb' hbc r hr hrw hrj).resolve_left hold
      rw [show y.claim = r.claim from congrArg Prod.snd hyk]
      exact hrb
    · exact h b hb' hbc x hy hw hj

theorem Fresh.of_subset {t : Fleet} (h : s.Fresh) (hsub : ∀ r ∈ t.runs, r ∈ s.runs) : t.Fresh :=
  fun b hb hbc r hr ↦ h b (hsub b hb) hbc r (hsub r hr)

theorem mem_claim_runs {ctx : Ctx} {w : WorkerId} {lease : Int} {batch : Nat} {seen : Bool}
    {r : Run} (h : r ∈ (s.claim ctx w lease batch seen).runs) :
    r ∈ s.runs ∨ ∃ id ∈ (s.jobs.claimJobs ctx w lease batch).2.map (·.1),
      r = ⟨w, id, (s.claimants id).length, .claimed⟩ := by
  simp only [Fleet.claim] at h
  cases seen with
  | false => exact Or.inl h
  | true =>
      rcases List.mem_append.mp h with h | h
      · exact Or.inl h
      · obtain ⟨id, hid, rfl⟩ := List.mem_map.mp h
        exact Or.inr ⟨id, hid, rfl⟩

-- A new batch is newer than anything the process has: its main loop has held the last one.
theorem Fresh.claim (hrec : s.Recorded) {ctx : Ctx} {w : WorkerId} {lease : Int}
    {batch : Nat} {seen : Bool} (h : s.Fresh) (hheld : ∀ r ∈ s.runs, inBatch w r = false) :
    (s.claim ctx w lease batch seen).Fresh := by
  intro b hb hbc r hr hw hj
  have hnot {x : Run} (hx : x ∈ s.runs) (hxw : x.worker = w) : x.phase ≠ .claimed := by
    intro hxc
    have hin := hheld x hx
    unfold inBatch at hin
    rw [decide_eq_false_iff_not] at hin
    exact hin ⟨hxw, hxc⟩
  rcases mem_claim_runs hb with hb | ⟨id, -, rfl⟩ <;>
    rcases mem_claim_runs hr with hr | ⟨id', -, rfl⟩
  · exact h b hb hbc r hr hw hj
  · exact absurd hbc (hnot hb hw.symm)
  · right
    have hlt := hrec.claim_lt hr
    rw [hj] at hlt
    exact hlt
  · exact Or.inl rfl

theorem Fresh.hold (h : s.Fresh) (w : WorkerId) : (s.hold w).Fresh := by
  intro b hb hbc r hr hw hj
  obtain ⟨b', hb', ⟨-, rfl⟩ | ⟨hbn, rfl⟩⟩ := mem_updateRows hb
  · cases hbc
  · obtain ⟨y, hy, ⟨hyb, rfl⟩ | ⟨-, rfl⟩⟩ := mem_updateRows hr
    · -- `b` is of the same process, so it would have been held too
      rw [inBatch, decide_eq_true_eq] at hyb
      rw [inBatch, decide_eq_false_iff_not] at hbn
      exact absurd ⟨hw.symm.trans hyb.1, hbc⟩ hbn
    · exact h b hb' hbc r hy hw hj

theorem Fresh.next (h : s.Fresh) (hrec : s.Recorded) {a : FleetStep} (ha : s.enabled a) :
    (s.next a).Fresh := by
  have hphase {r : Run} (hr : r ∈ s.runs) (hold : r.phase ≠ .claimed) {phase : Phase}
      (hnew : phase ≠ .claimed) : (s.setPhase r phase).Fresh := h.setPhase hr hold hrec hnew
  have hexec {p : Phase} (hp : isExecuting p) : p ≠ .claimed := by
    rintro rfl
    cases hp
  have hfail {p : Phase} (hp : isFailing p) : p ≠ .claimed := by
    rintro rfl
    cases hp
  cases a with
  | call c => exact h
  | claim ctx w lease batch seen => exact h.claim hrec ha
  | hold w => exact h.hold w
  | take r => exact hphase ha.1 (by rw [ha.2]; decide) (by decide)
  | start r monotonic maxExecution =>
      exact hphase ha.1 (by rw [ha.2]; decide) (fun he ↦ nomatch he)
  | raise r =>
      refine hphase ha.1 ?_ (fun he ↦ nomatch he)
      rcases ha.2 with hp | hp
      · rw [hp]
        decide
      · exact hexec hp
  | succeed r ctx seen =>
      have hnew : (if seen then Phase.settled else .failing (r.phase.entry.getD none)) ≠
          .claimed := by
        cases seen <;> intro he <;> cases he
      have hdone := hphase ha.1 (hexec ha.2) hnew
      exact hdone
  | fail r ctx error permanent maxAttempts draw =>
      have hdone : (s.setPhase r .settled).Fresh := hphase ha.1 (hfail ha.2) (by decide)
      exact hdone
  | abandon r => exact hphase ha.1 (hfail ha.2) (by decide)
  | finish r => exact h.of_subset fun x hx ↦ (List.mem_filter.mp hx).1
  | drain r => exact hphase ha.1 (by rw [ha.2]; decide) (by decide)
  | letGo w => exact h.of_subset fun x hx ↦ (List.mem_filter.mp hx).1
  | crash w => exact h.of_subset fun x hx ↦ (List.mem_filter.mp hx).1

/-! ## One run for each claim -/

def Keyed (s : Fleet) : Prop := ∀ r ∈ s.runs, ∀ x ∈ s.runs, x.key = r.key → x = r

theorem Keyed.of_subset {t : Fleet} (h : s.Keyed) (hsub : ∀ r ∈ t.runs, r ∈ s.runs) : t.Keyed :=
  fun r hr x hx ↦ h r (hsub r hr) x (hsub x hx)

theorem Keyed.updateRows {t : Fleet} (h : s.Keyed) {p : Run → Bool} {phase : Phase}
    (ht : t.runs = updateRows p ({ · with phase := phase }) s.runs) : t.Keyed := by
  intro r hr x hx hk
  rw [ht] at hr hx
  obtain ⟨r', hr', hr⟩ := List.mem_map.mp hr
  obtain ⟨x', hx', hx⟩ := List.mem_map.mp hx
  have hkey {y y' : Run} (hy : (if p y' then { y' with phase := phase } else y') = y) :
      y.key = y'.key := by
    rw [← hy]
    split <;> rfl
  rw [hkey hr, hkey hx] at hk
  rw [← hr, ← hx, h r' hr' x' hx' hk]

theorem Keyed.claim (h : s.Keyed) (hrec : s.Recorded) (ctx : Ctx) (w : WorkerId) (lease : Int)
    (batch : Nat) (seen : Bool) : (s.claim ctx w lease batch seen).Keyed := by
  -- claim numbers count up
  have hnew {r : Run} (hr : r ∈ s.runs) (id : Nat) :
      r.key ≠ (id, (s.claimants id).length) := by
    intro hk
    have hlt := hrec.claim_lt hr
    have hclaim : r.claim = (s.claimants id).length := congrArg Prod.snd hk
    rw [show r.job = id from congrArg Prod.fst hk] at hlt
    omega
  intro r hr x hx hk
  rcases mem_claim_runs hr with hr | ⟨id, -, rfl⟩ <;>
    rcases mem_claim_runs hx with hx | ⟨id', -, rfl⟩
  · exact h r hr x hx hk
  · exact absurd hk.symm (hnew hr id')
  · exact absurd hk (hnew hx id)
  · obtain rfl : id' = id := congrArg Prod.fst hk
    rfl

theorem Keyed.next (h : s.Keyed) (hrec : s.Recorded) (a : FleetStep) : (s.next a).Keyed := by
  cases a with
  | call c => exact h
  | claim ctx w lease batch seen => exact h.claim hrec ctx w lease batch seen
  | hold w => exact h.updateRows (t := s.hold w) rfl
  | finish r => exact h.of_subset fun x hx ↦ (List.mem_filter.mp hx).1
  | letGo w => exact h.of_subset fun x hx ↦ (List.mem_filter.mp hx).1
  | crash w => exact h.of_subset fun x hx ↦ (List.mem_filter.mp hx).1
  | take | start | raise | succeed | fail | abandon | drain => exact h.updateRows rfl

/-! ## The map -/

-- The runs of one process may get a new map, those of the others keep theirs.
theorem covered_setDeadlines {w : WorkerId} {m : Deadlines}
    (hw : ∀ r ∈ s.runs, r.worker = w → s.isLatest r → ∀ d, r.phase.entry = some d →
      m.lookup r.job = some d)
    (ho : ∀ r ∈ s.runs, r.worker ≠ w → s.isLatest r → ∀ d, r.phase.entry = some d →
      (s.deadlines r.worker).lookup r.job = some d) : (s.setDeadlines w m).Covered := by
  intro r hr hlast d hd
  simp only [setDeadlines]
  by_cases hrw : r.worker = w
  · rw [hrw, Function.update_self]
    exact hw r hr hrw hlast d hd
  · rw [Function.update_of_ne hrw]
    exact ho r hr hrw hlast d hd

-- A phase that asks for nothing else of the map than the last one may follow it.
theorem Covered.setPhase (h : s.Covered) (hrec : s.Recorded) {r : Run} (hr : r ∈ s.runs)
    {phase : Phase} (he : ∀ d, phase.entry = some d → r.phase.entry = some d) :
    (s.setPhase r phase).Covered := by
  intro x hx hlast d hd
  obtain ⟨y, hy, ⟨hk, rfl⟩ | ⟨-, rfl⟩⟩ := mem_setPhase hx
  · have hj : y.job = r.job := congrArg Prod.fst hk
    have hc : y.claim = r.claim := congrArg Prod.snd hk
    have hrl : s.isLatest r := by
      rw [isLatest, ← hj, ← hc]
      exact hlast
    have hin := h r hr hrl d (he d hd)
    rw [← hrec.worker_eq hr hy hk, ← hj] at hin
    exact hin
  · exact h x hy hlast d hd

theorem Covered.claim (h : s.Covered) (hrec : s.Recorded) (ctx : Ctx) (w : WorkerId) (lease : Int)
    (batch : Nat) (seen : Bool) : (s.claim ctx w lease batch seen).Covered := by
  intro r hr hlast d hd
  rcases mem_claim_runs hr with hrs | ⟨id, -, rfl⟩
  · refine h r hrs ?_ d hd
    -- a job that has been claimed has a later claim than that of `r`
    have hlt := hrec.claim_lt hrs
    simp only [isLatest, Fleet.claim] at hlast
    split at hlast
    · rw [List.length_append, List.length_singleton] at hlast
      omega
    · exact hlast
  · cases hd

theorem Covered.hold (h : s.Covered) (hrec : s.Recorded) (hfresh : s.Fresh) (w : WorkerId) :
    (s.hold w).Covered := by
  apply covered_setDeadlines
  · intro x hx hxw hlast d hd
    rw [Deadlines.lookup_hold]
    obtain ⟨y, hy, ⟨hyb, rfl⟩ | ⟨hyn, rfl⟩⟩ := mem_updateRows hx
    · -- a run of the batch
      rw [if_pos (List.mem_map.mpr ⟨y, List.mem_filter.mpr ⟨hy, hyb⟩, rfl⟩)]
      exact hd
    · rw [if_neg]
      · rw [← hxw]
        exact h x hy hlast d hd
      · -- a run that is held already has an older claim than the batch
        intro hmem
        obtain ⟨b, hb, hbj⟩ := List.mem_map.mp hmem
        obtain ⟨hb, hbb⟩ := List.mem_filter.mp hb
        rw [inBatch, decide_eq_true_eq] at hbb
        have hold := hfresh b hb hbb.2 x hy (hxw.trans hbb.1.symm) hbj.symm
        have hlt := hrec.claim_lt hb
        have hlast : x.claim + 1 = (s.claimants x.job).length := hlast
        rw [hbj] at hlt
        rcases hold with hxc | hxb
        · rw [hxc] at hd
          cases hd
        · omega
  · intro x hx hxw hlast d hd
    obtain ⟨y, hy, ⟨hyb, rfl⟩ | ⟨-, rfl⟩⟩ := mem_updateRows hx
    · rw [inBatch, decide_eq_true_eq] at hyb
      exact absurd hyb.1 hxw
    · exact h x hy hlast d hd

-- Runs that leave take their entries with them, but not those of later claims.
theorem Covered.release (h : s.Covered) (hrec : s.Recorded) (hkeyed : s.Keyed) {w : WorkerId}
    {p : Run → Bool} {jobIds : List Nat}
    (hids : ∀ id ∈ jobIds, ∃ r ∈ s.runs, r.job = id ∧ p r = true ∧
      ∀ x ∈ s.runs, x.worker = w → x.job = r.job → r.claim < x.claim → x.phase.entry = none) :
    ((s.without p).setDeadlines w ((s.deadlines w).release jobIds)).Covered := by
  apply covered_setDeadlines
  · intro x hx hxw hlast d hd
    obtain ⟨hxs, hxp⟩ := List.mem_filter.mp hx
    rw [Deadlines.lookup_release, if_neg]
    · rw [← hxw]
      exact h x hxs hlast d hd
    · intro hmem
      obtain ⟨r, hr, hrj, hgone, hlater⟩ := hids x.job hmem
      by_cases hk : x.key = r.key
      · rw [hkeyed r hr x hxs hk, hgone] at hxp
        cases hxp
      · have hlt := hrec.lt_of_isLatest hr hlast hrj.symm hk
        rw [hlater x hxs hxw hrj.symm hlt] at hd
        cases hd
  · intro x hx hxw hlast d hd
    exact h x (List.mem_filter.mp hx).1 hlast d hd

-- `run_job` sets its own deadline, and overwrites that of no later claim.
theorem Covered.start (h : s.Covered) (hrec : s.Recorded) {r : Run} (hr : r ∈ s.runs)
    (monotonic maxExecution : Int)
    (hlater : ∀ x ∈ s.runs, x.worker = r.worker → x.job = r.job → r.claim < x.claim →
      x.phase.entry = none) : (s.next (.start r monotonic maxExecution)).Covered := by
  apply covered_setDeadlines
  · intro x hx hxw hlast d hd
    rw [Deadlines.lookup_hold]
    obtain ⟨y, hy, ⟨hk, rfl⟩ | ⟨hk, rfl⟩⟩ := mem_setPhase hx
    · have hj : y.job ∈ [r.job] := List.mem_singleton.mpr (congrArg Prod.fst hk)
      rw [if_pos hj]
      exact hd
    · by_cases hj : x.job = r.job
      · have hlt := hrec.lt_of_isLatest hr hlast hj hk
        rw [hlater x hy hxw hj hlt] at hd
        cases hd
      · rw [if_neg fun hmem ↦ hj (List.mem_singleton.mp hmem), ← hxw]
        exact h x hy hlast d hd
  · intro x hx hxw hlast d hd
    obtain ⟨y, hy, ⟨hk, rfl⟩ | ⟨-, rfl⟩⟩ := mem_setPhase hx
    · exact absurd (hrec.worker_eq hr hy hk) hxw
    · exact h x hy hlast d hd

theorem Covered.next (h : s.Covered) (hrec : s.Recorded) (hfresh : s.Fresh) (hkeyed : s.Keyed)
    {a : FleetStep} (ha : s.enabled a) (hover : s.notOverlapping a) : (s.next a).Covered := by
  -- the entry of a failing run is the one it had before
  have hkeep {p : Phase} (hp : p = .taken ∨ isExecuting p) :
      ∀ d, (Phase.failing (p.entry.getD none)).entry = some d → p.entry = some d := by
    intro d hd
    rcases hp with rfl | hp
    · exact hd
    · cases p with
      | executing deadline => exact hd
      | _ => cases hp
  cases a with
  | call c => exact h
  | claim ctx w lease batch seen => exact h.claim hrec ctx w lease batch seen
  | hold w => exact h.hold hrec hfresh w
  | take r => exact h.setPhase hrec ha.1 fun d hd ↦ by rw [ha.2]; exact hd
  | start r monotonic maxExecution =>
      exact h.start hrec ha.1 monotonic maxExecution (hover r (List.mem_singleton_self r))
  | raise r => exact h.setPhase hrec ha.1 (hkeep ha.2)
  | succeed r ctx seen =>
      have hdone : (s.setPhase r
          (if seen then .settled else .failing (r.phase.entry.getD none))).Covered := by
        apply h.setPhase hrec ha.1
        cases seen with
        | true => intro d hd; cases hd
        | false => exact hkeep (Or.inr ha.2)
      exact hdone
  | fail r ctx error permanent maxAttempts draw =>
      have hdone : (s.setPhase r .settled).Covered :=
        h.setPhase hrec ha.1 fun d hd ↦ by cases hd
      exact hdone
  | abandon r => exact h.setPhase hrec ha.1 fun d hd ↦ by cases hd
  | finish r =>
      apply h.release hrec hkeyed
      intro id hid
      exact ⟨r, ha.1, (List.mem_singleton.mp hid).symm, decide_eq_true rfl,
        hover r (List.mem_singleton_self r)⟩
  | drain r => exact h.setPhase hrec ha.1 fun d hd ↦ by cases hd
  | letGo w =>
      apply h.release hrec hkeyed
      intro id hid
      obtain ⟨r, hr, hrj⟩ := List.mem_map.mp hid
      obtain ⟨hrs, hru⟩ := List.mem_filter.mp hr
      have hrw : r.worker = w := by
        rw [isUnstarted, decide_eq_true_eq] at hru
        exact hru.1
      exact ⟨r, hrs, hrj, hru, hrw ▸ hover r hr⟩
  | crash w =>
      apply covered_setDeadlines
      · intro x hx hxw
        have hkept := (List.mem_filter.mp hx).2
        simp only [hxw, decide_true, Bool.not_true, Bool.false_eq_true] at hkept
      · intro x hx hxw hlast d hd
        exact h x (List.mem_filter.mp hx).1 hlast d hd

theorem covered (h : (fleet.restrict notOverlapping).Reachable s) : s.Covered := by
  have hinv : s.Covered ∧ s.Fresh ∧ s.Keyed := by
    apply h.invariant_with (fun s hs ↦ recorded hs.of_restrict)
    · intro s hs
      rw [show s = Fleet.start from hs]
      exact ⟨fun r hr ↦ absurd hr List.not_mem_nil, fun r hr ↦ absurd hr List.not_mem_nil,
        fun r hr ↦ absurd hr List.not_mem_nil⟩
    · rintro s a t hrec ⟨hcov, hfresh, hkeyed⟩ ⟨hover, ha, rfl⟩
      exact ⟨hcov.next hrec hfresh hkeyed ha hover, hfresh.next hrec ha, hkeyed.next hrec a⟩
  exact hinv.1

end Fleet

/-- While no run starts or ends in a process that holds a later claim of the same job, every held
claim that is still the job's current one is in the map, without a deadline until `run_job` has
started it and with its own after that, and a beat before that deadline extends its lease. -/
theorem heartbeat_covers {s : Fleet} {r : Run} {entry : Option Int}
    (h : (fleet.restrict Fleet.notOverlapping).Reachable s) (hr : r ∈ s.runs)
    (hcur : s.isCurrent r) (he : r.phase.entry = some entry) :
    (s.deadlines r.worker).lookup r.job = some entry ∧
      ∀ (ctx : Ctx) (lease monotonic : Int), (∀ d, entry = some d → monotonic < d) →
        ∃ x, s.jobs.row r.job = some x ∧
          ((s.deadlines r.worker).beat s.jobs ctx r.worker lease monotonic).row r.job =
            some { x with lockedUntil := some (ctx.now + seconds lease) } := by
  obtain ⟨hlast, x, hx, hs, hw⟩ := hcur
  have hin := Fleet.covered h r hr hlast entry he
  refine ⟨hin, fun ctx lease monotonic hlive ↦ ⟨x, hx, ?_⟩⟩
  exact Deadlines.row_beat ctx lease hin hlive hx (Job.heldBy_iff.mpr ⟨hw, hs⟩)

/-- A claimed job in the buffer. -/
def buffered : List FleetStep :=
  .call ⟨.alone 0, .enqueue "t" "" none⟩ :: (claimAndStart 0 0).take 2

theorem heartbeat_covers_buffered :
    ((buffered.foldl Fleet.next Fleet.start).deadlines "w").lookup 1 = some none := by
  have hs : (fleet.restrict Fleet.notOverlapping).Reachable
      (buffered.foldl Fleet.next Fleet.start) :=
    System.reachable_restrict_of_play rfl buffered rfl
  exact (heartbeat_covers (r := ⟨"w", 1, 0, .ready⟩) hs (by decide)
    ⟨rfl, _, rfl, rfl, rfl⟩ rfl).1

/-- Job 1 fails, is claimed again before the failed run has let go of it, and is then let go of. -/
def reclaimedWhileFailing : List FleetStep :=
  .call ⟨.alone 0, .enqueue "t" "" none⟩ :: claimAndStart 0 0 ++
    [.raise (executingRun 0),
      .fail ⟨"w", 1, 0, .failing (some 300000000)⟩ (.alone 1000000) [] false none 0,
      .claim (.alone 1000000) "w" 30 1 true, .hold "w", .finish ⟨"w", 1, 0, .settled⟩]

/-- The claim in the buffer is the job's current one, and no beat extends it. -/
theorem heartbeat_uncovered :
    ∃ s : Fleet, fleet.Reachable s ∧ (⟨"w", 1, 1, .ready⟩ : Run) ∈ s.runs ∧
      s.isCurrent ⟨"w", 1, 1, .ready⟩ ∧ (s.deadlines "w").lookup 1 = none := by
  exact ⟨_, (System.run_of_play reclaimedWhileFailing rfl).reachable (.init rfl), by decide,
    ⟨rfl, _, rfl, rfl, rfl⟩, rfl⟩

end DurableQueue
