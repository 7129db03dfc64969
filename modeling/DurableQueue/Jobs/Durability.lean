import DurableQueue.Jobs.History
import DurableQueue.Reasoning.WriteAhead
import Mathlib.Logic.Relation

/-!
# What a database crash can take away

`relax_bookkeeping_durability` lets a worker's commits return before they are on disk.  A crash
may take those away, and with them what happened to jobs, but no work that was asked for: every
job that is lost goes back to one that will run again.
-/

open Reasoning

namespace DurableQueue

def JobOp.reopens : JobOp → Bool
  | .retryJob _ => true
  | .deleteCompletedJobs .. => true
  | _ => false

/-- One commit on the jobs table: a caller's transaction, a statement of a worker, or the
transaction of a task that takes `conn`, with what the task has enqueued on it.  The connections of
a worker wait for the disk with `durable_bookkeeping` only. -/
inductive Commit where
  | request (calls : List Call)
  | bookkeeping (c : Call) (durable : Bool)
  | task (enqueued : List Call) (ctx : Ctx) (jobId : Nat) (workerId : WorkerId) (durable : Bool)

namespace Commit

def calls : Commit → List Call
  | .request calls => calls
  | .bookkeeping c _ => [c]
  | .task enqueued ctx jobId workerId _ => enqueued ++ [⟨ctx, .markSucceeded jobId workerId⟩]

def waits : Commit → Bool
  | .request _ => true
  | .bookkeeping _ durable => durable
  | .task _ _ _ _ durable => durable

end Commit

def tableOf (log : List Commit) : Jobs := runCalls .empty (log.flatMap Commit.calls)

-- `_LeaseLost` undoes a task's transaction if the worker no longer holds the job.
def Commit.Allowed (log : List Commit) : Commit → Prop
  | .request calls => ∀ c ∈ calls, c.op.enqueues = true ∨ c.op.reopens = true
  | .bookkeeping c _ => c.op.enqueues = false ∧ c.op.reopens = false
  | .task enqueued _ jobId workerId _ =>
      (∀ c ∈ enqueued, c.op.enqueues = true) ∧
        ∃ r, (tableOf log).row jobId = some r ∧ r.heldBy workerId

/-- The queue on a database that may crash at any time. -/
def durableQueue : System (Logged Commit) (LogAct Commit) :=
  Logged.writeAhead Commit.waits Commit.Allowed

namespace Job

/-- What was asked for. -/
def request (r : Job) : Nat × String × Json × Option String :=
  (r.id, r.task, r.args, r.idempotencyKey)

def Finished (r : Job) : Prop := r.status = .succeeded ∨ r.status = .dead

end Job

/-- A task's transaction that enqueued the job `child` and completed the job `parent`. -/
inductive Spawned (log : List Commit) (parent child : Nat) : Prop where
  | task {before after : List Commit} {enqueued : List Call} {ctx : Ctx} {w : WorkerId}
      {durable : Bool} (hlog : log = before ++ .task enqueued ctx parent w durable :: after)
      (hnew : (tableOf before).row child = none)
      (hrow : ((tableOf (before ++ [.task enqueued ctx parent w durable])).row child).isSome)

/-! ## What calls keep of a row -/

section Rows

variable {t : Jobs} {c : Call} {cs : List Call} {id : Nat} {r : Job}

theorem RowChange.request_eq {r' : Job} (h : RowChange c (some r) (some r')) :
    r'.request = r.request := by
  obtain ⟨⟨hid, htask, hargs, hkey⟩, -⟩ := h.frame
  unfold Job.request
  rw [hid, htask, hargs, hkey]

-- A finished row stays as it is unless it is retried or deleted.
theorem Call.row_of_finished (hc : c.op.reopens = false) (hr : t.row id = some r)
    (hfin : r.Finished) : (c.run t).row id = some r := by
  have h := c.run_row t id
  rw [hr] at h
  rcases h.of_finished hfin with hsame | hgone | ⟨-, hop, -⟩
  · exact hsame
  · rw [hgone] at h
    cases h with
    | purged hop => rw [hop] at hc; cases hc
  · rw [hop] at hc
    cases hc

theorem Call.row_of_none (hc : c.op.enqueues = false) (hr : t.row id = none) :
    (c.run t).row id = none := by
  have h := c.run_row t id
  rw [hr] at h
  generalize (c.run t).row id = o at h ⊢
  cases h with
  | same => rfl
  | inserted hop => rw [hop] at hc; cases hc

theorem runCalls_of_none (hcs : ∀ c ∈ cs, c.op.enqueues = false) (hr : t.row id = none) :
    (runCalls t cs).row id = none := by
  induction cs generalizing t with
  | nil => exact hr
  | cons c cs ih =>
      obtain ⟨hc, hcs⟩ := List.forall_mem_cons.mp hcs
      exact ih hcs (c.row_of_none hc hr)

theorem runCalls_of_finished (hcs : ∀ c ∈ cs, c.op.reopens = false) (hr : t.row id = some r)
    (hfin : r.Finished) : (runCalls t cs).row id = some r := by
  induction cs generalizing t with
  | nil => exact hr
  | cons c cs ih =>
      obtain ⟨hc, hcs⟩ := List.forall_mem_cons.mp hcs
      exact ih hcs (c.row_of_finished hc hr hfin)

/-- A row stays what was asked for, or goes once it has finished. -/
theorem runCalls_kept (hr : t.row id = some r) (cs : List Call) :
    (∃ r', (runCalls t cs).row id = some r' ∧ r'.request = r.request) ∨
      ∃ cs₁ cs₂ r', cs = cs₁ ++ cs₂ ∧ (runCalls t cs₁).row id = some r' ∧
        r'.request = r.request ∧ r'.Finished := by
  induction cs generalizing t r with
  | nil => exact Or.inl ⟨r, hr, rfl⟩
  | cons c cs ih =>
      have h := c.run_row t id
      rw [hr] at h
      cases hr' : (c.run t).row id with
      | none =>
          rw [hr'] at h
          exact Or.inr ⟨[], c :: cs, r, rfl, hr, rfl, h.gone⟩
      | some r' =>
          rw [hr'] at h
          rcases ih hr' with ⟨x, hx, heq⟩ | ⟨cs₁, cs₂, x, rfl, hx, heq, hfin⟩
          · exact Or.inl ⟨x, hx, heq.trans h.request_eq⟩
          · exact Or.inr ⟨c :: cs₁, cs₂, x, rfl, hx, heq.trans h.request_eq, hfin⟩

theorem runCalls_kept_of (hcs : ∀ c ∈ cs, c.op.reopens = false) (hr : t.row id = some r) :
    ∃ r', (runCalls t cs).row id = some r' ∧ r'.request = r.request := by
  rcases runCalls_kept hr cs with hkept | ⟨cs₁, cs₂, r', rfl, hr', heq, hfin⟩
  · exact hkept
  · refine ⟨r', ?_, heq⟩
    rw [runCalls_append]
    exact runCalls_of_finished (fun c hc ↦ hcs c (List.mem_append_right _ hc)) hr' hfin

end Rows

/-! ## What a crash loses -/

section Lost

variable {log kept lost : List Commit} {id : Nat} {r : Job}

theorem tableOf_append (log log' : List Commit) :
    tableOf (log ++ log') = runCalls (tableOf log) (log'.flatMap Commit.calls) := by
  rw [tableOf, List.flatMap_append, runCalls_append]
  rfl

/-- A commit that does not wait reopens nothing, and enqueues only in the transaction of a task
that it completes. -/
theorem Commit.Allowed.of_relaxed {c : Commit} (h : c.Allowed log) (hw : c.waits = false) :
    (∀ x ∈ c.calls, x.op.reopens = false) ∧
      ((∀ x ∈ c.calls, x.op.enqueues = false) ∨
        ∃ enqueued ctx j w durable p, c = .task enqueued ctx j w durable ∧
          (tableOf log).row j = some p ∧ p.status = .running) := by
  cases c with
  | request calls => cases hw
  | bookkeeping c durable =>
      exact ⟨fun x hx ↦ List.mem_singleton.mp hx ▸ h.2,
        Or.inl fun x hx ↦ List.mem_singleton.mp hx ▸ h.1⟩
  | task enqueued ctx j w durable =>
      obtain ⟨henq, p, hp, hheld⟩ := h
      refine ⟨fun x hx ↦ ?_, Or.inr ⟨enqueued, ctx, j, w, durable, p, rfl, hp, ?_⟩⟩
      · rcases List.mem_append.mp hx with hx | hx
        · have hop := henq x hx
          cases hx : x.op <;> rw [hx] at hop <;> cases hop <;> rfl
        · rw [List.mem_singleton.mp hx]
          rfl
      · exact (Job.heldBy_iff.mp hheld).2

theorem reopens_of_lost (h : Written Commit.Allowed (kept ++ lost))
    (hlost : ∀ c ∈ lost, c.waits = false) :
    ∀ x ∈ lost.flatMap Commit.calls, x.op.reopens = false := by
  intro x hx
  obtain ⟨c, hc, hxc⟩ := List.mem_flatMap.mp hx
  obtain ⟨before, after, rfl⟩ := List.append_of_mem hc
  rw [← List.append_assoc] at h
  exact (h.allowed_at.of_relaxed (hlost c hc)).1 x hxc

theorem Spawned.append {parent child : Nat} (h : Spawned log parent child) (log' : List Commit) :
    Spawned (log ++ log') parent child := by
  obtain ⟨rfl, hnew, hrow⟩ := h
  exact .task (List.append_assoc _ _ _) hnew hrow

-- By induction on what is lost: the job that enqueued a lost job is one that has yet to finish
-- in what is kept, or has been lost before it.
theorem unfinished_ancestor (h : Written Commit.Allowed (kept ++ lost))
    (hlost : ∀ c ∈ lost, c.waits = false) (hnone : (tableOf kept).row id = none)
    (hsome : ((tableOf (kept ++ lost)).row id).isSome) :
    ∃ j r, Relation.TransGen (Spawned (kept ++ lost)) j id ∧
      (tableOf kept).row j = some r ∧ ¬ r.Finished := by
  induction lost using List.reverseRecOn generalizing id with
  | nil =>
      rw [List.append_nil, hnone] at hsome
      cases hsome
  | append_singleton lost c ih =>
      rw [← List.append_assoc] at h hsome ⊢
      have hbefore : ∀ d ∈ lost, d.waits = false := fun d hd ↦ hlost d (List.mem_append_left _ hd)
      have hwaits : c.waits = false := hlost c (List.mem_append_right _ (List.mem_singleton_self c))
      have hlift {j i : Nat} (hj : Relation.TransGen (Spawned (kept ++ lost)) j i) :
          Relation.TransGen (Spawned (kept ++ lost ++ [c])) j i :=
        Relation.TransGen.mono (fun _ _ (hs : Spawned _ _ _) ↦ hs.append [c]) _ _ hj
      cases hrow : (tableOf (kept ++ lost)).row id with
      | some x =>
          obtain ⟨j, r, hj, hr⟩ := ih h.of_append hbefore hnone (by rw [hrow]; rfl)
          exact ⟨j, r, hlift hj, hr⟩
      | none =>
          have hone : tableOf (kept ++ lost ++ [c]) =
              runCalls (tableOf (kept ++ lost)) c.calls := by
            rw [tableOf_append, List.flatMap_singleton]
          have hlast : Commit.Allowed (kept ++ lost) c := Written.allowed_at h
          rcases hlast.of_relaxed hwaits with
            ⟨-, hquiet | ⟨enqueued, ctx, j, w, durable, p, rfl, hp, hrun⟩⟩
          · rw [hone, runCalls_of_none hquiet hrow] at hsome
            cases hsome
          · have hspawned : Spawned (kept ++ lost ++ [_]) j id := .task rfl hrow hsome
            cases hj : (tableOf kept).row j with
            | some r =>
                refine ⟨j, r, .single hspawned, hj, fun hfin ↦ ?_⟩
                have hsame := runCalls_of_finished (reopens_of_lost h.of_append hbefore) hj hfin
                rw [← tableOf_append, hp] at hsame
                obtain rfl := Option.some.inj hsame
                rcases hfin with hs | hs <;> exact absurd (hrun.symm.trans hs) (by decide)
            | none =>
                obtain ⟨i, r, hi, hr⟩ := ih h.of_append hbefore hj (by rw [hp]; rfl)
                exact ⟨i, r, (hlift hi).tail hspawned, hr⟩

end Lost

/-- Workers that do not wait for the disk are sound.  Whatever crashes there are, the table is one
that calls alone lead to.  A caller's commit is never undone: each job is there, as it was asked
for, until it has finished.  A crash loses only commits that did not wait.  It may undo the end of
a job, but makes none up: a job that is finished after it was so before, in the same row.  And a job
that it loses came of one that it leaves unfinished, to run again. -/
theorem crashes_lose_no_request {s : Logged Commit} (h : durableQueue.Reachable s) :
    jobCalls.Reachable (tableOf s.log) ∧
    (∀ calls t as u, durableQueue.step s (.commit (.request calls)) t → durableQueue.Run t as u →
      ∀ id r, (tableOf t.log).row id = some r →
        (∃ r', (tableOf u.log).row id = some r' ∧ r'.request = r.request) ∨
          ∃ cs₁ cs₂ r', u.log.flatMap Commit.calls = cs₁ ++ cs₂ ∧
            (runCalls .empty cs₁).row id = some r' ∧ r'.request = r.request ∧ r'.Finished) ∧
    ∀ n t, durableQueue.step s (.crash n) t →
      (∃ lost, s.log = t.log ++ lost ∧ ∀ c ∈ lost, c.waits = false) ∧
      (∀ id r, (tableOf t.log).row id = some r →
        (∃ r', (tableOf s.log).row id = some r' ∧ r'.request = r.request) ∧
          (r.Finished → (tableOf s.log).row id = some r)) ∧
      ∀ id, ((tableOf s.log).row id).isSome → (tableOf t.log).row id = none →
        ∃ j r, Relation.TransGen (Spawned s.log) j id ∧ (tableOf t.log).row j = some r ∧
          ¬ r.Finished := by
  have hinv := Logged.inv_of_reachable h
  refine ⟨reachable_runCalls (.init (M := jobCalls) rfl) _, ?_, ?_⟩
  · intro calls t as u hcommit hrun id r hr
    have hstep : Logged.Step Commit.waits Commit.Allowed s (.commit (.request calls)) t := hcommit
    obtain ⟨-, hdisk⟩ := Logged.onDisk_of_waits rfl hstep
    obtain ⟨rest, hrest⟩ := hdisk.run hrun
    rw [← hrest, tableOf_append]
    rcases runCalls_kept hr (rest.flatMap Commit.calls) with
      hkept | ⟨cs₁, cs₂, r', hsplit, hr', heq, hfin⟩
    · exact Or.inl hkept
    · refine Or.inr ⟨t.log.flatMap Commit.calls ++ cs₁, cs₂, r', ?_, ?_, heq, hfin⟩
      · rw [List.flatMap_append, hsplit, List.append_assoc]
      · rw [runCalls_append]
        exact hr'
  · intro n t hcrash
    obtain ⟨lost, hlog, hlost⟩ := Logged.lost_of_crash hinv hcrash
    have hwritten : Written Commit.Allowed (t.log ++ lost) := hlog ▸ hinv.written
    have hquiet := reopens_of_lost hwritten hlost
    refine ⟨⟨lost, hlog, hlost⟩, fun id r hr ↦ ?_, fun id hsome hnone ↦ ?_⟩
    · rw [hlog, tableOf_append]
      exact ⟨runCalls_kept_of hquiet hr, runCalls_of_finished hquiet hr⟩
    · rw [hlog] at hsome ⊢
      exact unfinished_ancestor hwritten hlost hnone hsome

/-- A job, its claim, and the transaction in which its task enqueues another one. -/
def fannedOut : List Commit :=
  [.request [⟨.alone 0, .enqueue "parent" "" none⟩],
    .bookkeeping ⟨.alone 0, .claimJobs "w" 30 1⟩ false,
    .task [⟨.alone 0, .enqueue "child" "" none⟩] (.alone 0) 1 "w" false]

theorem fannedOut_reachable : durableQueue.Reachable ⟨fannedOut, 1⟩ := by
  have h₁ : durableQueue.Reachable ⟨fannedOut.take 1, 1⟩ := by
    refine .step (.init (M := durableQueue) rfl) (.commit fun c hc ↦ ?_)
    exact List.mem_singleton.mp hc ▸ Or.inl rfl
  have h₂ : durableQueue.Reachable ⟨fannedOut.take 2, 1⟩ := .step h₁ (.commit ⟨rfl, rfl⟩)
  refine .step h₂ (.commit ⟨fun c hc ↦ List.mem_singleton.mp hc ▸ rfl, ?_⟩)
  exact ⟨_, rfl, by decide⟩

/-- Its crash loses the second job with the completion of the first. -/
theorem crashes_lose_no_request_fannedOut :
    ((tableOf fannedOut).row 2).isSome ∧ (tableOf (fannedOut.take 1)).row 2 = none ∧
      ∃ j r, Relation.TransGen (Spawned fannedOut) j 2 ∧
        (tableOf (fannedOut.take 1)).row j = some r ∧ ¬ r.Finished := by
  obtain ⟨-, -, hcrash⟩ := crashes_lose_no_request fannedOut_reachable
  obtain ⟨-, -, hlost⟩ := hcrash 1 ⟨fannedOut.take 1, 1⟩ (.crash le_rfl (by decide))
  exact ⟨by decide, by decide, hlost 2 (by decide) (by decide)⟩

end DurableQueue
