import DurableQueue.Jobs.Durability
import DurableQueue.Jobs.Recoveries

/-!
# How often a job can be claimed

Each claim of a job ends in a failed attempt, a recovery, a release or its success, and attempts and
recoveries have limits.  A job of a task that declares a limit therefore comes to its end after so
many claims, however its runs and its workers fare.
-/

open Reasoning

namespace DurableQueue

/-- Whoever reports a failure of the job does so with a limit of at most `limit` attempts. -/
def limitsAttempts (id : Nat) (limit : Int) (c : Call) : Prop :=
  match c.op with
  | .markFailed jobId _ _ _ maxAttempts _ =>
      jobId = id → ∀ own, maxAttempts = some own → own ≤ limit
  | _ => True

structure Job.Budgeted (limit : Int) (r : Job) : Prop where
  maxRecoveries_eq : r.maxRecoveries = 10
  maxAttempts_le : r.maxAttempts ≤ limit
  attempts_le : (r.attempts : Int) ≤ limit
  attempts_lt : r.status ≠ .dead → (r.attempts : Int) < limit

variable {id : Nat} {limit : Int} {c : Call} {t : Jobs} {es : List Event}

theorem RowChange.budgeted {o o' : Option Job} (h : RowChange c o o') (hpos : 5 ≤ limit)
    (hlimit : ∀ r, o = some r → limitsAttempts r.id limit c)
    (ho : ∀ r, o = some r → r.Budgeted limit) : ∀ r', o' = some r' → r'.Budgeted limit := by
  intro r' hr'
  have hrunning {r : Job} (hb : r.Budgeted limit) (hs : r.status = .running) :
      (r.attempts : Int) < limit := hb.attempts_lt (by rw [hs]; decide)
  cases h with
  | same => exact ho r' hr'
  | inserted =>
      cases hr'
      exact ⟨rfl, hpos, show ((0 : Nat) : Int) ≤ limit by omega,
        fun _ ↦ show ((0 : Nat) : Int) < limit by omega⟩
  | @claimed r w lease batch hop hdue hfree =>
      cases hr'
      have hb := ho r rfl
      have hlt := hb.attempts_lt (by rw [(Job.due_iff.mp hdue).1]; decide)
      exact ⟨hb.maxRecoveries_eq, hb.maxAttempts_le, hb.attempts_le, fun _ ↦ hlt⟩
  | @extended r w lease hop hheld =>
      cases hr'
      have hb := ho r rfl
      exact ⟨hb.maxRecoveries_eq, hb.maxAttempts_le, hb.attempts_le, hb.attempts_lt⟩
  | @deadLettered r batch hop hexp hpoison hfree =>
      cases hr'
      have hb := ho r rfl
      exact ⟨hb.maxRecoveries_eq, hb.maxAttempts_le, hb.attempts_le, fun h ↦ absurd rfl h⟩
  | @recovered r batch hop hexp hfree =>
      cases hr'
      have hb := ho r rfl
      have hlt := hrunning hb (Job.expired_iff.mp hexp).1
      exact ⟨hb.maxRecoveries_eq, hb.maxAttempts_le, hb.attempts_le, fun _ ↦ hlt⟩
  | @released r ids w hop hmem hheld =>
      cases hr'
      have hb := ho r rfl
      have hlt := hrunning hb (Job.heldBy_iff.mp hheld).2
      exact ⟨hb.maxRecoveries_eq, hb.maxAttempts_le, hb.attempts_le, fun _ ↦ hlt⟩
  | @succeeded r w hop hheld =>
      cases hr'
      have hb := ho r rfl
      have hlt := hrunning hb (Job.heldBy_iff.mp hheld).2
      exact ⟨hb.maxRecoveries_eq, hb.maxAttempts_le, hb.attempts_le, fun _ ↦ hlt⟩
  | @failed r _ w error permanent maxAttempts draw hop hheld hfail =>
      obtain rfl := Option.some.inj hr'
      have hb := ho r rfl
      have hlt := hrunning hb (Job.heldBy_iff.mp hheld).2
      have hmax : maxAttempts.getD r.maxAttempts ≤ limit := by
        have hown := hlimit r rfl
        unfold limitsAttempts at hown
        rw [hop] at hown
        cases maxAttempts with
        | none => exact hb.maxAttempts_le
        | some own => exact hown rfl own rfl
      have hcount : ((r.attempts + 1 : Nat) : Int) ≤ limit := by
        push_cast
        omega
      rcases Job.failed_cases hfail with ⟨rfl, -⟩ | ⟨delay, -, rfl, -, hmore⟩
      · exact ⟨hb.maxRecoveries_eq, hmax, hcount, fun h ↦ absurd rfl h⟩
      · refine ⟨hb.maxRecoveries_eq, hmax, hcount, fun _ ↦ ?_⟩
        change ((r.attempts + 1 : Nat) : Int) < limit
        push_cast
        omega
  | @retried r hop hdead =>
      cases hr'
      have hb := ho r rfl
      exact ⟨hb.maxRecoveries_eq, hb.maxAttempts_le, show ((0 : Nat) : Int) ≤ limit by omega,
        fun _ ↦ show ((0 : Nat) : Int) < limit by omega⟩
  | purged => cases hr'

/-- The calls while no sweep recovers a poison pill, and the job `id` is limited to `limit`
attempts. -/
def budgetedCalls (id : Nat) (limit : Int) : System Jobs Call :=
  jobCalls.restrict fun t c ↦ sparesPoison t c ∧ limitsAttempts id limit c

theorem budgetedCalls_inv (hpos : 5 ≤ limit) (h : (budgetedCalls id limit).Reachable t) :
    (∀ id r, t.row id = some r → r.Bounded) ∧ ∀ r, t.row id = some r → r.Budgeted limit := by
  induction h with
  | init h =>
      obtain rfl : _ = Jobs.empty := h
      refine ⟨fun _ _ hr ↦ ?_, fun _ hr ↦ ?_⟩ <;> cases hr
  | @step t _ c _ ha ih =>
      obtain ⟨⟨hspares, hlimit⟩, rfl⟩ := ha
      refine ⟨Call.bounded hspares ih.1, (c.run_row t id).budgeted hpos (fun r hr ↦ ?_) ih.2⟩
      rw [Jobs.row_id hr]
      exact hlimit

/-- A job is claimed at most `limit` times for its attempts, ten times for its recoveries, and once
for each time that a worker has handed it back, since it was enqueued or last retried; and while it
is not finished it has been claimed less often than that. -/
theorem claims_bounded (hpos : 5 ≤ limit)
    (h : (budgetedCalls id limit).Observed (changesOf id) Jobs.empty es t) {r : Job}
    (hr : t.row id = some r) :
    (claimsIn (sinceRetry es) : Int) ≤ limit + 10 + releasesIn (sinceRetry es) ∧
      (¬ r.Finished →
        (claimsIn (sinceRetry es) : Int) < limit + 10 + releasesIn (sinceRetry es)) := by
  obtain ⟨hbound, hbudget⟩ := budgetedCalls_inv hpos (h.reachable (.init rfl))
  have hunborn : Jobs.At id Jobs.empty .unborn := rfl
  obtain ⟨s, hrun, hs⟩ := rowLife_run h.of_restrict hunborn
  cases s with
  | unborn => exact absurd (hr.symm.trans hs) (Option.some_ne_none r)
  | gone => exact absurd (hr.symm.trans hs.1) (Option.some_ne_none r)
  | live r' =>
      obtain rfl := Option.some.inj (hr.symm.trans hs)
      have hcount := rowLife_accounted hrun
      rw [Job.accounted] at hcount
      have hb := hbound id r hr
      have hw := hbudget r hr
      have hle := hw.maxRecoveries_eq ▸ hb.recoveries_le
      have hlt := hw.maxRecoveries_eq ▸ hb.recoveries_lt
      have hattempts := hw.attempts_le
      have hless := hw.attempts_lt
      unfold Job.Finished
      cases hs : r.status with
      | pending =>
          have hlt := hlt (Or.inl hs)
          have hless := hless (by rw [hs]; decide)
          rw [hs, if_neg (by decide)] at hcount
          omega
      | running =>
          have hlt := hlt (Or.inr hs)
          have hless := hless (by rw [hs]; decide)
          rw [hs, if_pos (by decide)] at hcount
          omega
      | succeeded =>
          have hless := hless (by rw [hs]; decide)
          rw [hs, if_pos (by decide)] at hcount
          exact ⟨by omega, fun hnot ↦ absurd (Or.inl rfl) hnot⟩
      | dead =>
          rw [hs, if_neg (by decide)] at hcount
          exact ⟨by omega, fun hnot ↦ absurd (Or.inr rfl) hnot⟩

/-- A job that fails for good on its second claim, the first of which has been recovered. -/
def failedAfterRecovery : List Call :=
  recoveredOnce ++ [⟨.alone 32000000, .markFailed 1 "b" [] true (some 3) 0⟩]

theorem claims_bounded_failed :
    ∃ r, (runCalls .empty failedAfterRecovery).row 1 = some r ∧ r.status = .dead ∧
      claimsIn (sinceRetry (historyOf 1 .empty failedAfterRecovery)) = 2 ∧
      (claimsIn (sinceRetry (historyOf 1 .empty failedAfterRecovery)) : Int) ≤
        5 + 10 + releasesIn (sinceRetry (historyOf 1 .empty failedAfterRecovery)) := by
  have hspares : ∀ r ∈ (runCalls .empty (recoveredOnce.take 2)).recoverable (.alone 31000000) 100,
      r.poisoned = false := by decide
  have hlimit : limitsAttempts 1 5 ⟨.alone 32000000, .markFailed 1 "b" [] true (some 3) 0⟩ :=
    fun _ own hown ↦ Option.some.inj hown ▸ by decide
  have hrun : (budgetedCalls 1 5).Observed (changesOf 1) .empty
      (historyOf 1 .empty failedAfterRecovery) (runCalls .empty failedAfterRecovery) :=
    .cons ⟨⟨trivial, trivial⟩, rfl⟩ <| .cons ⟨⟨trivial, trivial⟩, rfl⟩ <|
      .cons ⟨⟨hspares, trivial⟩, rfl⟩ <| .cons ⟨⟨trivial, trivial⟩, rfl⟩ <|
      .cons ⟨⟨trivial, hlimit⟩, rfl⟩ <| .nil _
  obtain ⟨hle, -⟩ := claims_bounded le_rfl hrun rfl
  exact ⟨_, rfl, rfl, by decide, hle⟩

end DurableQueue
