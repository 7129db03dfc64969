import DurableQueue.Jobs.Durability
import DurableQueue.Jobs.Recoveries
import DurableQueue.Reasoning.Potential
import DurableQueue.Worker.RunJob

/-!
# No job is overtaken for ever

Claims take the jobs that have waited longest, but a job that is recovered or handed back keeps its
place in front.  Once a job is due, the claims that pass it over can only take the jobs that stood
before it by then, and each of those only as often as it may be recovered.
-/

open Reasoning Finset

namespace DurableQueue

namespace Job

/-- It stands before `a` in the order of claims, whatever its status. -/
def precedes (a r : Job) : Bool := decide (claimOrder r a) && decide (r.id ≠ a.id)

/-- How often it can still be claimed before it is dead, if no worker hands it back. -/
def claimsLeft (r : Job) : Nat :=
  match r.status with
  | .pending => (r.maxRecoveries - r.recoveries).toNat
  | .running => (r.maxRecoveries - r.recoveries).toNat - 1
  | _ => 0

/-- How often the job in this row can still overtake `a`. -/
def overtakesLeft (a : Job) (o : Option Job) : Nat :=
  o.elim 0 fun r ↦ if a.precedes r then r.claimsLeft else 0

end Job

namespace Jobs

/-- How often jobs may still be claimed that stand before `a`. -/
def overtakesLeft (t : Jobs) (a : Job) : Nat := worth a.overtakesLeft t.row t.nextId

/-- How many jobs a claim takes that finds `a` due and unlocked, and does not take it. -/
def overtakers (t : Jobs) (a : Job) (c : Call) : Nat :=
  match c.op with
  | .claimJobs _ _ batch =>
      if t.row a.id = some a ∧ a.due c.now ∧ c.locked a.id = false ∧
          a ∉ t.claimable c.toCtx batch then
        (t.claimable c.toCtx batch).length
      else 0
  | _ => 0

/-- What `release_jobs` returns. -/
def handedBack (t : Jobs) (c : Call) : Nat :=
  match c.op with
  | .releaseJobs ids w => (t.releaseJobs ids w).2
  | _ => 0

end Jobs

/-- The calls from when `a` is due, with sweeps that pick no poison pill. -/
def SinceDue (a : Job) (t : Jobs) (c : Call) : Prop := a.runAt < c.now ∧ sparesPoison t c

/-! ## What one call pays -/

section Step

variable {a : Job} {c : Call} {o o' : Option Job} {t : Jobs}

theorem Job.precedes_iff {r : Job} :
    a.precedes r = true ↔ (r.runAt < a.runAt ∨ r.runAt = a.runAt ∧ r.id ≤ a.id) ∧ r.id ≠ a.id := by
  unfold Job.precedes
  rw [Bool.and_eq_true, decide_eq_true_eq, decide_eq_true_eq]
  rfl

theorem Job.not_precedes {r : Job} (h : a.runAt < r.runAt) : a.precedes r = false := by
  rw [← Bool.not_eq_true, Job.precedes_iff]
  omega

/-- Whether the change is the claim of a job that stands before `a`. -/
def takenBefore (a : Job) (o o' : Option Job) : Nat :=
  if (o.any fun r ↦ a.precedes r && decide (r.status = .pending)) &&
    o'.any fun r ↦ decide (r.status = .running) then 1 else 0

/-- Whether the call hands the job in this row back. -/
def givenBack (c : Call) (o : Option Job) : Nat :=
  match c.op with
  | .releaseJobs ids w => if o.any fun r ↦ decide (r.id ∈ ids) && r.heldBy w then 1 else 0
  | _ => 0

theorem takenBefore_of_not_claimed (h : ∀ r r', o = some r → o' = some r' →
    r.status = .pending → r'.status = .running → False) : takenBefore a o o' = 0 := by
  unfold takenBefore
  rw [if_neg]
  rw [Bool.and_eq_true, Option.any_eq_true, Option.any_eq_true]
  rintro ⟨⟨r, hr, hp⟩, r', hr', hs'⟩
  rw [Bool.and_eq_true, decide_eq_true_eq] at hp
  exact h r r' hr hr' hp.2 (of_decide_eq_true hs')

theorem takenBefore_le {r : Job} :
    takenBefore a (some r) o' ≤ if a.precedes r then 1 else 0 := by
  unfold takenBefore
  split
  · rename_i h
    rw [Bool.and_eq_true, Option.any_some, Bool.and_eq_true] at h
    rw [if_pos h.1.1]
  · exact Nat.zero_le _

theorem Job.claimsLeft_pending {r : Job} (h : r.status = .pending) :
    r.claimsLeft = (r.maxRecoveries - r.recoveries).toNat := by
  unfold Job.claimsLeft
  rw [h]

theorem Job.claimsLeft_running {r : Job} (h : r.status = .running) :
    r.claimsLeft = (r.maxRecoveries - r.recoveries).toNat - 1 := by
  unfold Job.claimsLeft
  rw [h]

theorem Job.overtakesLeft_some {r : Job} :
    a.overtakesLeft (some r) = if a.precedes r then r.claimsLeft else 0 := rfl

theorem Job.overtakesLeft_eq_zero {r : Job} (h : a.precedes r = false ∨ r.Finished) :
    a.overtakesLeft (some r) = 0 := by
  rw [overtakesLeft_some]
  rcases h with h | hs | hs
  · rw [h, if_neg Bool.false_ne_true]
  · rw [Job.claimsLeft, hs, ite_self]
  · rw [Job.claimsLeft, hs, ite_self]

-- Claims and recoveries are paid for by what is left, and a job that runs again later, or has been
-- retried, stands behind.
theorem RowChange.overtakes (h : RowChange c o o') (hnow : a.runAt < c.now)
    (hbound : ∀ r, o = some r → r.Bounded) (hborn : o = none → o' = none) :
    a.overtakesLeft o' + takenBefore a o o' ≤ a.overtakesLeft o + givenBack c o := by
  have hkept {r : Job} {x : Option Job} (hs : r.status = .running ∨ r.status = .dead) :
      takenBefore a (some r) x = 0 := by
    refine takenBefore_of_not_claimed fun y _ hy _ hpending _ ↦ ?_
    obtain rfl := Option.some.inj hy
    rcases hs with hs | hs <;> exact absurd (hs.symm.trans hpending) (by decide)
  have hgone {r r' : Job} (hs : r.status = .running ∨ r.status = .dead)
      (hzero : a.precedes r' = false ∨ r'.Finished) :
      a.overtakesLeft (some r') + takenBefore a (some r) (some r') ≤
        a.overtakesLeft (some r) + givenBack c (some r) := by
    rw [Job.overtakesLeft_eq_zero hzero, hkept hs]
    exact Nat.zero_le _
  have hstays {r r' : Job} (hs : r.status = .running) (hsame : a.precedes r' = a.precedes r)
      (hle : r'.claimsLeft ≤ r.claimsLeft + givenBack c (some r)) :
      a.overtakesLeft (some r') + takenBefore a (some r) (some r') ≤
        a.overtakesLeft (some r) + givenBack c (some r) := by
    rw [hkept (Or.inl hs), Job.overtakesLeft_some, Job.overtakesLeft_some, hsame]
    split
    · exact hle
    · exact Nat.zero_le _
  cases h with
  | same o =>
      rw [takenBefore_of_not_claimed]
      · exact Nat.le_add_right _ _
      · rintro r r' hr hr' hs hs'
        obtain rfl := Option.some.inj (hr.symm.trans hr')
        exact absurd (hs.symm.trans hs') (by decide)
  | inserted hop => cases hborn rfl
  | @claimed r w lease batch hop hdue hfree =>
      have hs := (Job.due_iff.mp hdue).1
      have hlt := (hbound r rfl).recoveries_lt (Or.inl hs)
      let r' := SetClause.claim w (c.now + seconds lease) r
      have htaken : takenBefore a (some r) (some r') ≤ if a.precedes r then 1 else 0 :=
        takenBefore_le
      have hleft : r'.claimsLeft + 1 = r.claimsLeft := by
        rw [Job.claimsLeft_running rfl, Job.claimsLeft_pending hs]
        change (r.maxRecoveries - r.recoveries).toNat - 1 + 1 = _
        omega
      change a.overtakesLeft (some r') + takenBefore a (some r) (some r') ≤ _
      rw [Job.overtakesLeft_some, Job.overtakesLeft_some,
        show a.precedes r' = a.precedes r from rfl]
      split at htaken
      · rename_i hp
        rw [if_pos hp, if_pos hp]
        omega
      · rename_i hp
        rw [if_neg hp, if_neg hp]
        omega
  | extended hop hheld =>
      exact hstays (Job.heldBy_iff.mp hheld).2 rfl (Nat.le_add_right _ _)
  | deadLettered hop hexp hpoison hfree =>
      exact hgone (Or.inl (Job.expired_iff.mp hexp).1) (Or.inr (Or.inr rfl))
  | @recovered r batch hop hexp hfree =>
      have hs := (Job.expired_iff.mp hexp).1
      refine hstays hs rfl (Nat.le_add_right_of_le ?_)
      rw [Job.claimsLeft_pending rfl, Job.claimsLeft_running hs]
      change (r.maxRecoveries - (r.recoveries + 1 : Nat)).toNat ≤ _
      omega
  | @released r ids w hop hmem hheld =>
      have hs := (Job.heldBy_iff.mp hheld).2
      have hback : givenBack c (some r) = 1 := by
        unfold givenBack
        rw [hop]
        simp only [Option.any_some, decide_eq_true hmem, hheld, Bool.and_self, if_true]
      refine hstays hs rfl ?_
      rw [hback, Job.claimsLeft_pending rfl, Job.claimsLeft_running hs]
      change (r.maxRecoveries - r.recoveries).toNat ≤ (r.maxRecoveries - r.recoveries).toNat - 1 + 1
      omega
  | succeeded hop hheld =>
      exact hgone (Or.inl (Job.heldBy_iff.mp hheld).2) (Or.inr (Or.inl rfl))
  | failed hop hheld hfail =>
      have hs := (Job.heldBy_iff.mp hheld).2
      rcases Job.failed_cases hfail with ⟨rfl, -⟩ | ⟨delay, hdelay, rfl, -⟩
      · exact hgone (Or.inl hs) (Or.inr (Or.inr rfl))
      · refine hgone (Or.inl hs) (Or.inl (Job.not_precedes ?_))
        have hlater := (Jobs.computeBackoff_bounds hdelay).1
        change a.runAt < c.now + delay
        omega
  | retried hop hdead => exact hgone (Or.inr hdead) (Or.inl (Job.not_precedes hnow))
  | purged =>
      rw [takenBefore_of_not_claimed fun _ _ _ h ↦ by cases h]
      exact Nat.zero_le _

-- No row comes to stand before a job that is due.
theorem RowChange.precedes (h : RowChange c o o') (hnow : a.runAt < c.now) {r' : Job}
    (hr' : o' = some r') (hp : a.precedes r' = true) : ∃ r, o = some r ∧ a.precedes r = true := by
  have hlater {x : Job} (hx : o' = some x) (hlt : a.runAt < x.runAt) : False := by
    obtain rfl := Option.some.inj (hx.symm.trans hr')
    rw [Job.not_precedes hlt] at hp
    cases hp
  cases h with
  | same => exact ⟨r', hr', hp⟩
  | inserted hop => exact (hlater rfl hnow).elim
  | failed hop hheld hfail =>
      rcases Job.failed_cases hfail with ⟨rfl, -⟩ | ⟨delay, hdelay, rfl, -⟩
      · obtain rfl := Option.some.inj hr'
        exact ⟨_, rfl, hp⟩
      · have hge := (Jobs.computeBackoff_bounds hdelay).1
        refine (hlater rfl ?_).elim
        change a.runAt < c.now + delay
        omega
  | retried hop hdead => exact (hlater rfl hnow).elim
  | purged => cases hr'
  | claimed | extended | deadLettered | recovered | released | succeeded =>
      obtain rfl := Option.some.inj hr'
      exact ⟨_, rfl, hp⟩

end Step

/-! ## What the calls of a run pay -/

namespace Jobs

variable {a : Job} {c : Call} {t : Jobs}

theorem selectForUpdate_ids_nodup (t : Jobs) (ctx : Ctx) (cand : Job → Bool)
    (before : Job → Job → Prop) [DecidableRel before] (limit : Nat) :
    ((t.selectForUpdate ctx cand before limit).map Job.id).Nodup := by
  have hrows : ((t.rows.filter fun r ↦ cand r && !ctx.locked r.id).map Job.id).Nodup :=
    t.idsNodup.sublist (List.filter_sublist.map Job.id)
  have hperm := (List.perm_insertionSort before
    (t.rows.filter fun r ↦ cand r && !ctx.locked r.id)).map Job.id
  exact (hperm.nodup_iff.mpr hrows).sublist ((List.take_sublist limit _).map Job.id)

-- The jobs that a claim takes instead of `a` fill its batch, and stand before `a`.
theorem claimable_of_passed {ctx : Ctx} {batch : Nat} (ha : t.row a.id = some a)
    (hdue : a.due ctx.now = true) (hfree : ctx.locked a.id = false)
    (hnot : a ∉ t.claimable ctx batch) :
    (t.claimable ctx batch).length = batch ∧
      ∀ r ∈ t.claimable ctx batch, a.precedes r = true := by
  have hcand : (a.due ctx.now && !ctx.locked a.id) = true := by
    rw [hdue, hfree]
    rfl
  obtain ⟨hlen, hbefore⟩ := selectRows_of_not_mem (row_mem ha) hcand hnot
  refine ⟨hlen, fun r hr ↦ Job.precedes_iff.mpr ⟨(hbefore r hr).1, fun hid ↦ ?_⟩⟩
  have hrow := row_of_mem (mem_selectForUpdate hr).1
  rw [hid, ha] at hrow
  exact (hbefore r hr).2 (Option.some.inj hrow).symm

theorem overtakers_le {n : Nat}
    (hahead : ∀ id r, t.row id = some r → a.precedes r = true → id < n) :
    t.overtakers a c ≤ ∑ id ∈ range n, takenBefore a (t.row id) ((c.run t).row id) := by
  obtain ⟨ctx, op⟩ := c
  unfold overtakers
  cases op with
  | claimJobs w lease batch =>
      simp only
      split
      · rename_i h
        obtain ⟨ha, hdue, hfree, hnot⟩ := h
        obtain ⟨-, hbefore⟩ := claimable_of_passed ha hdue hfree hnot
        rw [← List.length_map Job.id]
        refine length_le_sum (t.selectForUpdate_ids_nodup ..) fun id hid ↦ ?_
        obtain ⟨r, hr, rfl⟩ := List.mem_map.mp hid
        obtain ⟨hmem, hready, -⟩ := mem_selectForUpdate hr
        have hrow := row_of_mem hmem
        refine ⟨hahead _ r hrow (hbefore r hr), ?_⟩
        -- the row that it leaves is a running one
        have hclaimed := row_updateIn_of_mem hrow hr (.claim w (ctx.now + seconds lease))
        change 0 < takenBefore a (t.row r.id) ((t.updateIn _ _).row r.id)
        rw [hclaimed, hrow, takenBefore, if_pos]
        · exact Nat.zero_lt_one
        · rw [Option.any_some, Option.any_some, hbefore r hr, (Job.due_iff.mp hready).1]
          rfl
      · exact Nat.zero_le _
  | _ => exact Nat.zero_le _

theorem handedBack_ge (t : Jobs) (c : Call) (n : Nat) :
    ∑ id ∈ range n, givenBack c (t.row id) ≤ t.handedBack c := by
  unfold givenBack handedBack
  cases c.op with
  | releaseJobs ids w => exact sum_rowAt_le (fun r : Job ↦ decide (r.id ∈ ids) && r.heldBy w) n
  | _ => exact (sum_const_zero).le

end Jobs

/-- What the calls keep while `a` is due: rows that stand before it did so in the table `t₀`. -/
structure StandsFixed (a : Job) (t₀ t : Jobs) : Prop where
  bounded : ∀ id r, t.row id = some r → r.Bounded
  drawn : t₀.nextId ≤ t.nextId
  before : ∀ id r, t.row id = some r → a.precedes r = true →
    ∃ r₀, t₀.row id = some r₀ ∧ a.precedes r₀ = true

theorem StandsFixed.step {a : Job} {t₀ t : Jobs} {c : Call} (h : StandsFixed a t₀ t)
    (hc : SinceDue a t c) :
    StandsFixed a t₀ (c.run t) ∧
      worth a.overtakesLeft (c.run t).row t₀.nextId + t.overtakers a c ≤
        worth a.overtakesLeft t.row t₀.nextId + t.handedBack c := by
  obtain ⟨hnow, hspares⟩ := hc
  have hborn : ∀ id < t₀.nextId, t.row id = none → (c.run t).row id = none :=
    fun id hid ↦ (c.run_of_lt (hid.trans_le h.drawn)).2
  refine ⟨⟨Call.bounded hspares h.bounded, ?_, fun id r' hr' hp ↦ ?_⟩, ?_⟩
  · rcases Nat.eq_zero_or_pos t₀.nextId with hzero | hpos
    · rw [hzero]
      exact Nat.zero_le _
    · have hlast := (c.run_of_lt (Nat.lt_of_lt_of_le (Nat.pred_lt hpos.ne') h.drawn)).1
      exact Nat.le_of_pred_lt hlast
  · obtain ⟨r, hr, hp⟩ := (c.run_row t id).precedes hnow hr' hp
    exact h.before id r hr hp
  · have hpay : worth a.overtakesLeft (c.run t).row t₀.nextId +
          ∑ id ∈ range t₀.nextId, takenBefore a (t.row id) ((c.run t).row id) ≤
        worth a.overtakesLeft t.row t₀.nextId + ∑ id ∈ range t₀.nextId, givenBack c (t.row id) :=
      worth_add_le fun id hid ↦ (c.run_row t id).overtakes hnow (h.bounded id) (hborn id hid)
    have hgain : t.overtakers a c ≤
        ∑ id ∈ range t₀.nextId, takenBefore a (t.row id) ((c.run t).row id) := by
      refine Jobs.overtakers_le fun id r hr hp ↦ ?_
      obtain ⟨r₀, hr₀, -⟩ := h.before id r hr hp
      exact Jobs.row_lt hr₀
    have hcost := t.handedBack_ge c t₀.nextId
    omega

end DurableQueue
