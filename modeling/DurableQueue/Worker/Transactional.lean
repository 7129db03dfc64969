import DurableQueue.Worker.Fencing
import Mathlib.Data.List.AList

/-!
# Transactional tasks

`run_job` for a task that takes `conn`: its writes and the completion of the job are one
transaction.  A step is a statement, a commit, a rollback or a crash; between two of them anything
else may happen to the table that the row locks allow.
-/

open Reasoning

namespace DurableQueue

inductive TaskPhase where
  | body        -- inside the transaction, before the completion UPDATE
  | completed   -- the UPDATE has matched, and holds the row lock until the commit
  | failing     -- rolled back, or committed without hearing of it; `mark_failed` comes next
  | counted     -- its first UPDATE has matched, and holds the row lock
  deriving DecidableEq

def TaskPhase.locks : TaskPhase → Bool
  | completed => true
  | counted => true
  | _ => false

structure TaskRun where
  worker : WorkerId
  job : Nat
  phase : TaskPhase
  deriving DecidableEq

/-- The committed table, how many executions of each job's body have committed, the runs that
are under way, and the run that holds the lock of each locked row. -/
structure TaskStore where
  jobs : Jobs
  executed : Nat → Nat
  runs : AList fun _ : Nat ↦ TaskRun
  locks : AList fun _ : Nat ↦ Nat

inductive TaskStep where
  | call (c : Call)
  | begin (k : Nat) (w : WorkerId) (job : Nat)
  | complete (k : Nat) (r : TaskRun)
  | commit (k : Nat) (r : TaskRun) (ctx : Ctx) (learnt : Bool)
  | raise (k : Nat) (r : TaskRun)
  | count (k : Nat) (r : TaskRun)
  | record (k : Nat) (r : TaskRun) (ctx : Ctx) (error : PyStr) (permanent : Bool)
      (maxAttempts : Option Int) (draw : Int)
  | crash (k : Nat) (r : TaskRun)

/-- The statements that say `FOR UPDATE SKIP LOCKED`.  The others wait for a row they write. -/
def JobOp.skipsLocked : JobOp → Bool
  | .claimJobs .. => true
  | .deadLetterExpired _ => true
  | .recoverExpired _ => true
  | .deleteCompletedJobs .. => true
  | _ => false

def JobOp.marksSucceeded : JobOp → Option Nat
  | .markSucceeded jobId _ => some jobId
  | _ => none

namespace TaskStore

def held (s : TaskStore) (r : TaskRun) : Bool := (s.jobs.row r.job).any (·.heldBy r.worker)

def call (s : TaskStore) (c : Call) : TaskStore := { s with jobs := c.run s.jobs }

def setPhase (s : TaskStore) (k : Nat) (r : TaskRun) (phase : TaskPhase) : TaskStore :=
  { s with runs := s.runs.insert k { r with phase := phase } }

def lock (s : TaskStore) (k : Nat) (r : TaskRun) : TaskStore :=
  { s with locks := s.locks.insert r.job k }

def unlock (s : TaskStore) (r : TaskRun) : TaskStore :=
  { s with locks := if r.phase.locks then s.locks.erase r.job else s.locks }

def forget (s : TaskStore) (k : Nat) : TaskStore := { s with runs := s.runs.erase k }

def markSucceeded (r : TaskRun) (ctx : Ctx) : Call := ⟨ctx, .markSucceeded r.job r.worker⟩

def next (s : TaskStore) : TaskStep → TaskStore
  | .call c => s.call c
  | .begin k w job => { s with runs := s.runs.insert k ⟨w, job, .body⟩ }
  -- `mark_succeeded_in_transaction`; without a row `_LeaseLost` rolls the body back
  | .complete k r =>
      if s.held r then (s.setPhase k r .completed).lock k r else s.forget k
  | .commit k r ctx learnt =>
      let t := (if learnt then s.forget k else s.setPhase k r .failing).unlock r
      { t.call (markSucceeded r ctx) with
        executed := Function.update s.executed r.job (s.executed r.job + 1) }
  | .raise k r => (s.setPhase k r .failing).unlock r
  | .count k r => if s.held r then (s.setPhase k r .counted).lock k r else s.forget k
  | .record k r ctx error permanent maxAttempts draw =>
      ((s.forget k).unlock r).call
        ⟨ctx, .markFailed r.job r.worker error permanent maxAttempts draw⟩
  | .crash k r => (s.forget k).unlock r

/-- When a step can be taken.  A run may begin for whatever job, more than `run_worker` does. -/
def enabled (wantsConnection : String → Bool) (s : TaskStore) : TaskStep → Prop
  | .call c =>
      (∀ id ∈ c.op.marksSucceeded, ((s.jobs.row id).any fun x ↦ wantsConnection x.task) = false) ∧
      ∀ id ∈ s.locks.keys,
        if c.op.skipsLocked then c.locked id = true
        else (c.run s.jobs).row id = s.jobs.row id
  | .begin k _ _ => k ∉ s.runs
  | .complete k r =>
      s.runs.lookup k = some r ∧ r.phase = .body ∧ (s.held r → r.job ∉ s.locks.keys)
  | .commit k r _ _ => s.runs.lookup k = some r ∧ r.phase = .completed
  | .raise k r => s.runs.lookup k = some r ∧ (r.phase = .body ∨ r.phase = .completed)
  | .count k r =>
      s.runs.lookup k = some r ∧ r.phase = .failing ∧ (s.held r → r.job ∉ s.locks.keys)
  | .record k r _ _ _ _ _ => s.runs.lookup k = some r ∧ r.phase = .counted
  | .crash k r => s.runs.lookup k = some r

def start : TaskStore := ⟨.empty, fun _ ↦ 0, ∅, ∅⟩

end TaskStore

/-- The table with transactional runs on it.  `wantsConnection` says which tasks take `conn`. -/
def transactional (wantsConnection : String → Bool) : System TaskStore TaskStep :=
  .guarded (· = TaskStore.start) (TaskStore.enabled wantsConnection) TaskStore.next

/-! ## Calls on locked rows -/

-- A locked row is not written by anybody else.
theorem RowChange.of_locked {c : Call} {r : Job} {o : Option Job} (h : RowChange c (some r) o)
    (hop : c.op.skipsLocked = true) (hlock : c.locked r.id = true) : o = some r := by
  have hfree : c.locked r.id ≠ false := by rw [hlock]; decide
  cases h with
  | same => rfl
  | claimed _ _ h | recovered _ _ h | purged _ _ h => exact absurd h hfree
  | deadLettered _ _ _ h => exact absurd h hfree
  | extended hop' => rcases hop' with hop' | ⟨_, _, hop'⟩ <;> rw [hop'] at hop <;> cases hop
  | released hop' | succeeded hop' | failed hop' | retried hop' => rw [hop'] at hop; cases hop

theorem RowChange.to_succeeded {c : Call} {x x' : Job} (h : RowChange c (some x) (some x'))
    (hs : x'.status = .succeeded) :
    x.status = .succeeded ∨ c.op.marksSucceeded = some x.id := by
  cases h with
  | same => exact Or.inl hs
  | extended hop hheld => exact Or.inl hs
  | succeeded hop hheld => exact Or.inr (by rw [hop]; rfl)
  | failed hop hheld hfail =>
      rcases Job.failed_cases hfail with ⟨rfl, -⟩ | ⟨delay, -, rfl, -⟩ <;> cases hs
  | claimed | deadLettered | recovered | released | retried => cases hs

namespace TaskStore

variable {wantsConnection : String → Bool} {s : TaskStore}

/-- Who holds a lock, what it means, and what has been executed. -/
structure Inv (wantsConnection : String → Bool) (s : TaskStore) : Prop where
  holder : ∀ id k, s.locks.lookup id = some k →
    ∃ r, s.runs.lookup k = some r ∧ r.job = id ∧ r.phase.locks = true
  lease : ∀ k r, s.runs.lookup k = some r → r.phase.locks = true →
    s.locks.lookup r.job = some k ∧ ∃ x, s.jobs.row r.job = some x ∧ x.heldBy r.worker
  executed : ∀ id x, s.jobs.row id = some x → wantsConnection x.task = true →
    s.executed id = if x.status = .succeeded then 1 else 0
  undrawn : ∀ id, s.jobs.nextId ≤ id → s.executed id = 0

theorem held_iff {r : TaskRun} :
    s.held r = true ↔ ∃ x, s.jobs.row r.job = some x ∧ x.heldBy r.worker := by
  simp only [held, Option.any_eq_true]

-- A run that is there after another has gone, or one with a lock after another has moved on
-- without, is as it was.
theorem lookup_of_erase {k k' : Nat} {r : TaskRun} (h : (s.runs.erase k).lookup k' = some r) :
    k' ≠ k ∧ s.runs.lookup k' = some r := by
  have hkk : k' ≠ k := by
    rintro rfl
    have hnone : (s.runs.erase k').lookup k' = none := AList.lookup_erase k' s.runs
    exact Option.some_ne_none r (h.symm.trans hnone)
  exact ⟨hkk, (AList.lookup_erase_ne hkk).symm.trans h⟩

theorem lookup_of_insert {k k' : Nat} {r new : TaskRun} (hnew : new.phase.locks = false)
    (h : (s.runs.insert k new).lookup k' = some r) (hl : r.phase.locks = true) :
    k' ≠ k ∧ s.runs.lookup k' = some r := by
  have hkk : k' ≠ k := by
    rintro rfl
    have hsome : (s.runs.insert k' new).lookup k' = some new := AList.lookup_insert s.runs
    rw [Option.some.inj (h.symm.trans hsome), hnew] at hl
    cases hl
  exact ⟨hkk, (AList.lookup_insert_ne hkk).symm.trans h⟩

-- A call that leaves locked rows alone and completes no transactional job.
theorem Inv.call (h : s.Inv wantsConnection) {c : Call}
    (hmarks : ∀ id x, c.op.marksSucceeded = some id → s.jobs.row id = some x →
      wantsConnection x.task = false)
    (hlocks : ∀ k r, s.runs.lookup k = some r → r.phase.locks = true →
      (c.run s.jobs).row r.job = s.jobs.row r.job) : (s.call c).Inv wantsConnection where
  holder := h.holder
  lease k r hr hl := by
    obtain ⟨hk, x, hx, hheld⟩ := h.lease k r hr hl
    exact ⟨hk, x, (hlocks k r hr hl).trans hx, hheld⟩
  executed id x' hx' hw := by
    have hc := c.run_row s.jobs id
    rw [show (c.run s.jobs).row id = some x' from hx'] at hc
    cases hx : s.jobs.row id with
    | none =>
        rw [hx] at hc
        have hnew : s.jobs.nextId ≤ id := by
          by_contra hlt
          have hnone := (c.run_of_lt (Nat.lt_of_not_le hlt)).2 hx
          exact Option.some_ne_none x' (hx'.symm.trans hnone)
        cases hc with
        | inserted hop => exact h.undrawn id hnew
    | some x =>
        rw [hx] at hc
        obtain ⟨⟨-, htask, -⟩, hstatus⟩ := hc.frame
        rw [show (s.call c).executed id = s.executed id from rfl,
          h.executed id x hx (htask ▸ hw)]
        have hiff : x.status = .succeeded ↔ x'.status = .succeeded := by
          constructor
          · intro hs
            rcases hstatus with he | he
            · exact he.trans hs
            · rw [hs] at he
              cases he
          · intro hs'
            rcases hc.to_succeeded hs' with hs | hmark
            · exact hs
            · rw [Jobs.row_id hx] at hmark
              rw [htask, hmarks id x hmark hx] at hw
              cases hw
        simp only [hiff]
  undrawn id hid := by
    apply h.undrawn
    by_contra hlt
    have hlt' : id < (c.run s.jobs).nextId := (c.run_of_lt (Nat.lt_of_not_le hlt)).1
    have hid : (c.run s.jobs).nextId ≤ id := hid
    omega

-- A run that gets a row lock which is free.
theorem Inv.lock (h : s.Inv wantsConnection) {k : Nat} {r : TaskRun}
    (hr : s.runs.lookup k = some r) (hold : r.phase.locks = false) (hheld : s.held r = true)
    (hfree : r.job ∉ s.locks.keys) {phase : TaskPhase} (hnew : phase.locks = true) :
    ((s.setPhase k r phase).lock k r).Inv wantsConnection where
  holder id k' hk' := by
    simp only [TaskStore.lock, setPhase] at hk' ⊢
    by_cases hid : id = r.job
    · subst hid
      rw [AList.lookup_insert] at hk'
      obtain rfl := Option.some.inj hk'
      exact ⟨_, AList.lookup_insert _, rfl, hnew⟩
    · rw [AList.lookup_insert_ne hid] at hk'
      obtain ⟨r', hr', hj, hl⟩ := h.holder id k' hk'
      have hkk : k' ≠ k := by
        rintro rfl
        rw [Option.some.inj (hr'.symm.trans hr), hold] at hl
        cases hl
      exact ⟨r', (AList.lookup_insert_ne hkk).trans hr', hj, hl⟩
  lease k' r' hr' hl' := by
    simp only [TaskStore.lock, setPhase] at hr' ⊢
    by_cases hkk : k' = k
    · subst hkk
      rw [AList.lookup_insert] at hr'
      obtain rfl := Option.some.inj hr'
      exact ⟨AList.lookup_insert _, held_iff.mp hheld⟩
    · rw [AList.lookup_insert_ne hkk] at hr'
      obtain ⟨hlook, hrow⟩ := h.lease k' r' hr' hl'
      have hne : r'.job ≠ r.job := by
        intro he
        rw [he] at hlook
        exact hfree (AList.mem_keys.mp (AList.lookup_isSome.mp (by rw [hlook]; rfl)))
      exact ⟨(AList.lookup_insert_ne hne).trans hlook, hrow⟩
  executed := h.executed
  undrawn := h.undrawn

-- A run that ends, or goes on without a lock: its own lock goes, the others stay.
theorem Inv.release (h : s.Inv wantsConnection) {k : Nat} {r : TaskRun}
    (hr : s.runs.lookup k = some r) {t : TaskStore} (hjobs : t.jobs = s.jobs)
    (hexecuted : t.executed = s.executed) (hlocks : t.locks = (s.unlock r).locks)
    (hruns : ∀ k', k' ≠ k → t.runs.lookup k' = s.runs.lookup k')
    (hk : ∀ r', t.runs.lookup k = some r' → r'.phase.locks = false) :
    t.Inv wantsConnection where
  holder id k' hk' := by
    rw [hlocks] at hk'
    simp only [unlock] at hk'
    have hcase : s.locks.lookup id = some k' ∧ k' ≠ k := by
      cases hl : r.phase.locks with
      | true =>
          rw [hl, if_pos rfl] at hk'
          have hid : id ≠ r.job := by
            rintro rfl
            rw [AList.lookup_erase] at hk'
            cases hk'
          rw [AList.lookup_erase_ne hid] at hk'
          refine ⟨hk', ?_⟩
          rintro rfl
          obtain ⟨r', hr', hj, -⟩ := h.holder id k' hk'
          rw [Option.some.inj (hr'.symm.trans hr)] at hj
          exact hid hj.symm
      | false =>
          rw [hl, if_neg Bool.false_ne_true] at hk'
          refine ⟨hk', ?_⟩
          rintro rfl
          obtain ⟨r', hr', -, hl'⟩ := h.holder id k' hk'
          rw [Option.some.inj (hr'.symm.trans hr), hl] at hl'
          cases hl'
    obtain ⟨r', hr', hj, hl'⟩ := h.holder id k' hcase.1
    exact ⟨r', (hruns k' hcase.2).trans hr', hj, hl'⟩
  lease k' r' hr' hl' := by
    have hkk : k' ≠ k := by
      rintro rfl
      rw [hk r' hr'] at hl'
      cases hl'
    rw [hruns k' hkk] at hr'
    obtain ⟨hlook, hrow⟩ := h.lease k' r' hr' hl'
    rw [hjobs, hlocks]
    refine ⟨?_, hrow⟩
    simp only [unlock]
    cases hl : r.phase.locks with
    | true =>
        have hne : r'.job ≠ r.job := by
          intro he
          have hmine := (h.lease k r hr hl).1
          rw [← he, hlook] at hmine
          exact hkk (Option.some.inj hmine)
        rw [if_pos rfl, AList.lookup_erase_ne hne]
        exact hlook
    | false => exact hlook
  executed := by rw [hjobs, hexecuted]; exact h.executed
  undrawn := by rw [hjobs, hexecuted]; exact h.undrawn

theorem Inv.forget (h : s.Inv wantsConnection) {k : Nat} {r : TaskRun}
    (hr : s.runs.lookup k = some r) : ((s.forget k).unlock r).Inv wantsConnection := by
  apply h.release hr (t := (s.forget k).unlock r) rfl rfl rfl
  · intro k' hk
    exact AList.lookup_erase_ne hk
  · intro r' hr'
    have hnone : (s.runs.erase k).lookup k = none := AList.lookup_erase k s.runs
    exact absurd (hr'.symm.trans hnone) (Option.some_ne_none r')

theorem Inv.fail (h : s.Inv wantsConnection) {k : Nat} {r : TaskRun}
    (hr : s.runs.lookup k = some r) :
    ((s.setPhase k r .failing).unlock r).Inv wantsConnection := by
  apply h.release hr (t := (s.setPhase k r .failing).unlock r) rfl rfl rfl
  · intro k' hk
    exact AList.lookup_insert_ne hk
  · intro r' hr'
    have hsome : (s.runs.insert k { r with phase := .failing }).lookup k =
        some { r with phase := .failing } := AList.lookup_insert s.runs
    rw [Option.some.inj (hr'.symm.trans hsome)]
    rfl

theorem Inv.unlocked (h : s.Inv wantsConnection) {k : Nat} {r : TaskRun}
    (hr : s.runs.lookup k = some r) (hl : r.phase.locks = true) {k' : Nat} {r' : TaskRun}
    (hr' : s.runs.lookup k' = some r') (hl' : r'.phase.locks = true) (hkk : k' ≠ k) :
    r'.job ≠ r.job := by
  intro he
  have hmine := (h.lease k r hr hl).1
  rw [← he, (h.lease k' r' hr' hl').1] at hmine
  exact hkk (Option.some.inj hmine)

-- The commit: the row is still the one the completion UPDATE has matched, so it succeeds now, and
-- no other run of the job can have got as far.
theorem Inv.commit (h : s.Inv wantsConnection) {k : Nat} {r : TaskRun}
    (hr : s.runs.lookup k = some r) (hl : r.phase.locks = true) {t : TaskStore}
    (ht : t.Inv wantsConnection) (hjobs : t.jobs = s.jobs)
    (hfree : ∀ k' r', t.runs.lookup k' = some r' → r'.phase.locks = true → r'.job ≠ r.job)
    (ctx : Ctx) :
    TaskStore.Inv wantsConnection
      { t.call (markSucceeded r ctx) with
        executed := Function.update s.executed r.job (s.executed r.job + 1) } := by
  obtain ⟨-, x, hx, hheld⟩ := h.lease k r hr hl
  have hrow : ((markSucceeded r ctx).run s.jobs).row r.job =
      some (SetClause.succeed ctx.now x) :=
    Jobs.row_updateHeld_of_heldBy hx (List.mem_singleton_self _) hheld _
  have hother (id : Nat) (hid : id ≠ r.job) :
      ((markSucceeded r ctx).run s.jobs).row id = s.jobs.row id := by
    by_contra hne
    exact hid (Call.run_outcome (Or.inl rfl) hne).1
  refine ⟨ht.holder, fun k' r' hr' hl' ↦ ?_, fun id x' hx' hw ↦ ?_, fun id hid ↦ ?_⟩
  · obtain ⟨hk', y, hy, hyheld⟩ := ht.lease k' r' hr' hl'
    refine ⟨hk', y, ?_, hyheld⟩
    simp only [TaskStore.call]
    rw [hjobs] at hy ⊢
    exact (hother r'.job (hfree k' r' hr' hl')).trans hy
  · simp only [TaskStore.call, hjobs] at hx' ⊢
    by_cases hid : id = r.job
    · subst hid
      obtain rfl := Option.some.inj (hrow.symm.trans hx')
      have hrunning : x.status = .running := (Job.heldBy_iff.mp hheld).2
      have hzero := h.executed r.job x hx hw
      rw [hrunning, if_neg (by decide)] at hzero
      rw [Function.update_self, hzero]
      rfl
    · rw [Function.update_of_ne hid]
      exact h.executed id x' ((hother id hid).symm.trans hx') hw
  · simp only [TaskStore.call, hjobs] at hid
    have hid : s.jobs.nextId ≤ id := hid
    have hlt := Jobs.row_lt hx
    have hne : id ≠ r.job := by omega
    exact (Function.update_of_ne hne _ _).trans (h.undrawn id hid)

-- Every step keeps the invariant.
theorem Inv.next (h : s.Inv wantsConnection) {a : TaskStep} (ha : s.enabled wantsConnection a) :
    (s.next a).Inv wantsConnection := by
  cases a with
  | call c =>
      obtain ⟨hmarks, hlocks⟩ := ha
      apply h.call
      · intro id x hid hx
        have hany := hmarks id hid
        rw [hx] at hany
        exact hany
      · intro k r hr hl
        obtain ⟨hlook, x, hx, -⟩ := h.lease k r hr hl
        have hkey : r.job ∈ s.locks.keys :=
          AList.mem_keys.mp (AList.lookup_isSome.mp (by rw [hlook]; rfl))
        have hguard := hlocks r.job hkey
        by_cases hop : c.op.skipsLocked = true
        · rw [if_pos hop] at hguard
          have hc := c.run_row s.jobs r.job
          rw [hx] at hc ⊢
          exact hc.of_locked hop (by rw [Jobs.row_id hx]; exact hguard)
        · rw [if_neg hop] at hguard
          exact hguard
  | begin k w job =>
      have hnone : s.runs.lookup k = none := AList.lookup_eq_none.mpr ha
      refine ⟨fun id k' hk' ↦ ?_, fun k' r' hr' hl' ↦ ?_, h.executed, h.undrawn⟩
      · obtain ⟨r', hr', hj, hl'⟩ := h.holder id k' hk'
        have hkk : k' ≠ k := by
          rintro rfl
          exact Option.some_ne_none r' (hr'.symm.trans hnone)
        exact ⟨r', (AList.lookup_insert_ne hkk).trans hr', hj, hl'⟩
      · exact h.lease k' r' (lookup_of_insert rfl hr' hl').2 hl'
  | complete k r =>
      obtain ⟨hr, hp, hfree⟩ := ha
      have hl : r.phase.locks = false := by rw [hp]; rfl
      simp only [TaskStore.next]
      split
      · exact h.lock hr hl ‹_› (hfree ‹_›) rfl
      · have hgone := h.forget hr
        rw [unlock, hl] at hgone
        exact hgone
  | commit k r ctx learnt =>
      obtain ⟨hr, hp⟩ := ha
      have hl : r.phase.locks = true := by rw [hp]; rfl
      cases learnt with
      | true =>
          apply h.commit hr hl (h.forget hr) rfl
          intro k' r' hr' hl'
          obtain ⟨hkk, hold⟩ := lookup_of_erase hr'
          exact h.unlocked hr hl hold hl' hkk
      | false =>
          apply h.commit hr hl (h.fail hr) rfl
          intro k' r' hr' hl'
          obtain ⟨hkk, hold⟩ := lookup_of_insert rfl hr' hl'
          exact h.unlocked hr hl hold hl' hkk
  | raise k r => exact h.fail ha.1
  | count k r =>
      obtain ⟨hr, hp, hfree⟩ := ha
      have hl : r.phase.locks = false := by rw [hp]; rfl
      simp only [TaskStore.next]
      split
      · exact h.lock hr hl ‹_› (hfree ‹_›) rfl
      · have hgone := h.forget hr
        rw [unlock, hl] at hgone
        exact hgone
  | record k r ctx error permanent maxAttempts draw =>
      obtain ⟨hr, hp⟩ := ha
      have hl : r.phase.locks = true := by rw [hp]; rfl
      apply (h.forget hr).call
      · intro id x hid
        cases hid
      · intro k' r' hr' hl'
        obtain ⟨hkk, hold⟩ := lookup_of_erase hr'
        have hne := h.unlocked hr hl hold hl' hkk
        by_contra hchanged
        exact hne (Call.run_outcome (Or.inr ⟨_, _, _, _, rfl⟩) hchanged).1
  | crash k r => exact h.forget ha

theorem inv (h : (transactional wantsConnection).Reachable s) : s.Inv wantsConnection := by
  apply h.invariant
  · intro s hs
    rw [show s = TaskStore.start from hs]
    exact ⟨fun _ _ hk ↦ (by cases hk), fun _ _ hr ↦ (by cases hr), fun _ _ hx ↦ (by cases hx),
      fun _ _ ↦ rfl⟩
  · intro s a t hs hstep
    rw [hstep.2]
    exact hs.next hstep.1

end TaskStore

/-- However the runs of a transactional job interleave, fail and crash, and whatever else happens
to the table: its body has been committed once if it has succeeded, and not at all otherwise. -/
theorem transactional_exactly_once {wantsConnection : String → Bool} {s : TaskStore} {id : Nat}
    {x : Job} (h : (transactional wantsConnection).Reachable s) (hx : s.jobs.row id = some x)
    (hw : wantsConnection x.task = true) :
    s.executed id = if x.status = .succeeded then 1 else 0 :=
  (TaskStore.inv h).executed id x hx hw

instance (wantsConnection : String → Bool) (s : TaskStore) :
    DecidablePred (s.enabled wantsConnection)
  | .call c =>
      inferInstanceAs (Decidable ((∀ id ∈ c.op.marksSucceeded, _) ∧ ∀ id ∈ s.locks.keys, _))
  | .begin k _ _ => inferInstanceAs (Decidable (k ∉ s.runs))
  | .complete k r =>
      inferInstanceAs (Decidable
        (s.runs.lookup k = some r ∧ r.phase = .body ∧ (s.held r → r.job ∉ s.locks.keys)))
  | .commit k r _ _ => inferInstanceAs (Decidable (s.runs.lookup k = some r ∧ r.phase = .completed))
  | .raise k r =>
      inferInstanceAs (Decidable
        (s.runs.lookup k = some r ∧ (r.phase = .body ∨ r.phase = .completed)))
  | .count k r =>
      inferInstanceAs (Decidable
        (s.runs.lookup k = some r ∧ r.phase = .failing ∧ (s.held r → r.job ∉ s.locks.keys)))
  | .record k r _ _ _ _ _ =>
      inferInstanceAs (Decidable (s.runs.lookup k = some r ∧ r.phase = .counted))
  | .crash k r => inferInstanceAs (Decidable (s.runs.lookup k = some r))

/-- The lease of `a` runs out while it is in the body; `b` claims the job and commits; then `a`
finds its lease lost. -/
def overtaken : List TaskStep :=
  [.call ⟨.alone 0, .enqueue "t" "" none⟩, .call ⟨.alone 0, .claimJobs "a" 30 1⟩, .begin 0 "a" 1,
    .call ⟨.alone 31000000, .recoverExpired 100⟩, .call ⟨.alone 31000000, .claimJobs "b" 30 1⟩,
    .begin 1 "b" 1, .complete 1 ⟨"b", 1, .body⟩,
    .commit 1 ⟨"b", 1, .completed⟩ (.alone 32000000) true, .complete 0 ⟨"a", 1, .body⟩]

theorem transactional_exactly_once_overtaken :
    ∃ s : TaskStore, (s.jobs.row 1).map Job.status = some .succeeded ∧ s.executed 1 = 1 := by
  refine ⟨overtaken.foldl TaskStore.next TaskStore.start, rfl, ?_⟩
  have hs : (transactional fun task ↦ decide (task = "t")).Reachable
      (overtaken.foldl TaskStore.next TaskStore.start) :=
    (System.run_of_play overtaken rfl).reachable (.init rfl)
  have hrow : ∃ x, (overtaken.foldl TaskStore.next TaskStore.start).jobs.row 1 = some x ∧
      decide (x.task = "t") = true ∧ x.status = .succeeded := ⟨_, rfl, rfl, rfl⟩
  obtain ⟨x, hx, hw, hdone⟩ := hrow
  rw [transactional_exactly_once hs hx hw, if_pos hdone]

end DurableQueue
