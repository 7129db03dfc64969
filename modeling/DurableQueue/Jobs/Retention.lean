import DurableQueue.Jobs.Durability
import DurableQueue.Jobs.EnqueueMany

/-!
# Keys outlive their jobs by the retention window

A purge frees the idempotency key of each job that it deletes.  Enqueues are deduplicated over
whatever period the purges leave a finished job alone for, and not longer.
-/

open Reasoning

namespace DurableQueue

variable {t : Jobs} {c : Call} {cs : List Call} {id id' : Nat} {r r' : Job} {key : String}
  {retention : Int}

def JobOp.deletes : JobOp → Bool
  | .deleteCompletedJobs .. => true
  | _ => false

/-- Purges leave jobs alone for `retention` after they have finished. -/
def Call.retains (retention : Int) (c : Call) : Prop :=
  ∀ olderThan batch, c.op = .deleteCompletedJobs olderThan batch → retention ≤ olderThan

theorem RowChange.createdAt {o o' : Option Job} (h : RowChange c o o') :
    ∀ r', o' = some r' →
      (∃ r, o = some r ∧ r'.createdAt = r.createdAt ∧ r'.idempotencyKey = r.idempotencyKey) ∨
        o = none ∧ c.op.enqueues = true ∧ r'.createdAt = c.now := by
  intro r' hr'
  cases h with
  | same => exact Or.inl ⟨r', hr', rfl, rfl⟩
  | inserted hop =>
      obtain rfl := Option.some.inj hr'
      exact Or.inr ⟨rfl, hop, rfl⟩
  | failed hop hheld hfail =>
      obtain rfl := Option.some.inj hr'
      rcases Job.failed_cases hfail with ⟨rfl, -⟩ | ⟨delay, -, rfl, -⟩ <;>
        exact Or.inl ⟨_, rfl, rfl, rfl⟩
  | purged => cases hr'
  | claimed | extended | deadLettered | recovered | released | succeeded | retried =>
      obtain rfl := Option.some.inj hr'
      exact Or.inl ⟨_, rfl, rfl, rfl⟩

-- A row under a key that is not in the table yet will be inserted by one of the calls.
theorem runCalls_inserted (hkey : ∀ x ∈ t.rows, x.idempotencyKey ≠ some key)
    (hr' : (runCalls t cs).row id' = some r') (hkey' : r'.idempotencyKey = some key) :
    ∃ c ∈ cs, c.op.enqueues = true ∧ r'.createdAt = c.now := by
  induction cs using List.reverseRecOn generalizing r' with
  | nil => exact absurd hkey' (hkey r' (Jobs.row_mem hr'))
  | append_singleton cs c ih =>
      rw [runCalls_append] at hr'
      rcases ((c.run_row (runCalls t cs) id').createdAt) r' hr' with
        ⟨x, hx, hcreated, hsame⟩ | ⟨-, hop, hcreated⟩
      · obtain ⟨d, hd, henq, hnow⟩ := ih hx (hsame.symm.trans hkey')
        exact ⟨d, List.mem_append_left _ hd, henq, hcreated.trans hnow⟩
      · exact ⟨c, List.mem_append_right _ (List.mem_singleton_self c), hop, hcreated⟩

-- The call after which a row is gone adds no row.
theorem Call.purges (hr : t.row id = some r) (hgone : (c.run t).row id = none) :
    ∃ olderThan batch, c.op = .deleteCompletedJobs olderThan batch ∧
      r.finishedBefore (c.now - olderThan) = true := by
  have h := c.run_row t id
  rw [hr, hgone] at h
  cases h with
  | purged hop hfin hfree => exact ⟨_, _, hop, hfin⟩

theorem Jobs.rowWithKey_of_row (hr : t.row id = some r) (hkey : r.idempotencyKey = some key) :
    t.rowWithKey key = some r := by
  cases h : t.rowWithKey key with
  | none => exact absurd hkey (rowWithKey_none_iff.mp h r (row_mem hr))
  | some x =>
      obtain ⟨hx, hxkey⟩ := rowWithKey_some h
      rw [eq_of_key hx (row_mem hr) hxkey hkey]

-- Once a row is deleted its key is free.
theorem Call.frees (hr : t.row id = some r) (hkey : r.idempotencyKey = some key)
    (hgone : (c.run t).row id = none) : ∀ x ∈ (c.run t).rows, x.idempotencyKey ≠ some key := by
  intro x hx hxkey
  have hrow := Jobs.row_of_mem hx
  rcases ((c.run_row t x.id).createdAt) x hrow with ⟨y, hy, -, hsame⟩ | ⟨-, hop, -⟩
  · have hyr : y = r :=
      Jobs.eq_of_key (Jobs.row_mem hy) (Jobs.row_mem hr) (hsame.symm.trans hxkey) hkey
    rw [← Jobs.row_id hy, hyr, Jobs.row_id hr, hgone] at hrow
    cases hrow
  · obtain ⟨olderThan, batch, hpurge, -⟩ := c.purges hr hgone
    rw [hpurge] at hop
    cases hop

theorem purged_before_reuse (hr : t.row id = some r) (hkey : r.idempotencyKey = some key)
    (hretains : ∀ c ∈ cs, c.retains retention)
    (hclock : cs.Pairwise fun c d ↦ c.op.deletes = true → d.op.enqueues = true → c.now ≤ d.now)
    (hr' : (runCalls t cs).row id' = some r') (hkey' : r'.idempotencyKey = some key)
    (hne : id' ≠ id) :
    ∃ cs₁ cs₂ x finished, cs = cs₁ ++ cs₂ ∧ (runCalls t cs₁).row id = some x ∧
      x.request = r.request ∧ x.Finished ∧ x.finishedAt = some finished ∧
      finished + retention < r'.createdAt := by
  induction cs generalizing t r with
  | nil =>
      have heq := Jobs.eq_of_key (Jobs.row_mem hr') (Jobs.row_mem hr) hkey' hkey
      rw [← Jobs.row_id hr', heq, Jobs.row_id hr] at hne
      exact absurd rfl hne
  | cons c cs ih =>
      obtain ⟨hc, hretains⟩ := List.forall_mem_cons.mp hretains
      obtain ⟨hfirst, hclock⟩ := List.pairwise_cons.mp hclock
      cases hnext : (c.run t).row id with
      | some x =>
          have h := c.run_row t id
          rw [hr, hnext] at h
          obtain ⟨cs₁, cs₂, y, finished, rfl, hy, hsame, hrest⟩ :=
            ih hnext (h.frame.1.2.2.2.trans hkey) hretains hclock hr'
          exact ⟨c :: cs₁, cs₂, y, finished, rfl, hy, hsame.trans h.request_eq, hrest⟩
      | none =>
          obtain ⟨olderThan, batch, hop, hfin⟩ := c.purges hr hnext
          obtain ⟨hdone, finished, hat, hlong⟩ := Job.finishedBefore_iff.mp hfin
          obtain ⟨d, hd, henq, hcreated⟩ := runCalls_inserted (c.frees hr hkey hnext) hr' hkey'
          have hlater := hfirst d hd (by rw [hop]; rfl) henq
          have hwindow := hc olderThan batch hop
          refine ⟨[], c :: cs, r, finished, rfl, hr, rfl, hdone, hat, ?_⟩
          rw [hcreated]
          omega

/-- While a job is in the table, an enqueue under its key answers with its id and adds nothing.  The
next job under that key is created more than the retention window after the first one finished, as
long as no enqueue's transaction began before that of a purge that it comes after. -/
theorem key_outlives_job (hr : t.row id = some r) (hkey : r.idempotencyKey = some key) :
    (∀ task args now, (t.enqueue task args (some key) now).2 = id ∧
      (t.enqueue task args (some key) now).1.rows = t.rows) ∧
    ∀ cs : List Call, (∀ c ∈ cs, c.retains retention) →
      (cs.Pairwise fun c d ↦ c.op.deletes = true → d.op.enqueues = true → c.now ≤ d.now) →
      ∀ id' r', (runCalls t cs).row id' = some r' → r'.idempotencyKey = some key → id' ≠ id →
        ∃ cs₁ cs₂ x finished, cs = cs₁ ++ cs₂ ∧ (runCalls t cs₁).row id = some x ∧
          x.request = r.request ∧ x.Finished ∧ x.finishedAt = some finished ∧
          finished + retention < r'.createdAt := by
  refine ⟨fun task args now ↦ ?_, fun cs hretains hclock id' r' hr' hkey' hne ↦ ?_⟩
  · obtain ⟨hrows, hid⟩ :=
      Jobs.rows_enqueue_conflict task args now (Jobs.rowWithKey_of_row hr hkey)
    exact ⟨hid.trans (Jobs.row_id hr), hrows⟩
  · exact purged_before_reuse hr hkey hretains hclock hr' hkey' hne

/-- A job that succeeds, is deleted an hour later, and is enqueued again. -/
def reused : List Call :=
  [⟨.alone 0, .claimJobs "w" 30 1⟩, ⟨.alone 0, .markSucceeded 1 "w"⟩,
    ⟨.alone 3600000001, .deleteCompletedJobs (seconds 3600) 1000⟩,
    ⟨.alone 3600000001, .enqueue "t" "" (some "k")⟩]

theorem key_outlives_job_reused :
    ∃ r' finished, (runCalls Jobs.oneKeyed reused).row 2 = some r' ∧
      finished + seconds 3600 < r'.createdAt ∧ r'.createdAt = 3600000001 := by
  have hretains : ∀ c ∈ reused, c.retains (seconds 3600) := by
    intro c hc olderThan batch hop
    simp only [reused, List.mem_cons, List.not_mem_nil, or_false] at hc
    rcases hc with rfl | rfl | rfl | rfl <;> cases hop
    exact le_rfl
  have hclock : reused.Pairwise fun c d ↦
      c.op.deletes = true → d.op.enqueues = true → c.now ≤ d.now := by
    simp [reused, JobOp.deletes, JobOp.enqueues]
  have hrow' : (runCalls Jobs.oneKeyed reused).row 2 =
      some (Job.insert 2 "t" "" (some "k") 3600000001) := by decide
  have hrow : Jobs.oneKeyed.row 1 = some (Job.insert 1 "t" "{}" (some "k") 0) := rfl
  have hkey : (Job.insert 1 "t" "{}" (some "k") 0).idempotencyKey = some "k" := rfl
  obtain ⟨-, hnext⟩ := key_outlives_job hrow hkey
  obtain ⟨_, _, _, finished, -, -, -, -, -, hlt⟩ :=
    hnext reused hretains hclock 2 _ hrow' rfl (by decide)
  exact ⟨_, finished, hrow', hlt, rfl⟩

end DurableQueue
