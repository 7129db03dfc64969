import DurableQueue.Reasoning.Batches
import DurableQueue.Reasoning.RowLocks
import DurableQueue.Worker.Transactional

/-!
# Contending for rows

The calls of `jobs.py` that are one UPDATE or DELETE, row by row as Postgres runs them under READ
COMMITTED: each has its snapshot, locks one row after the other, looks again at a row that has
changed meanwhile, and commits.  Each of them amounts to one step, for which the rows that it has
not seen, or has found locked or changed, are locked.
-/

open Reasoning

namespace DurableQueue

/-- The calls that are a single statement on existing rows. -/
def JobOp.isStatement : JobOp → Bool
  | .enqueue .. => false
  | .enqueueMany .. => false
  | .markFailed .. => false
  | _ => true

namespace Call

/-- `WHERE`. -/
def cand (c : Call) (r : Job) : Bool :=
  match c.op with
  | .claimJobs .. => r.due c.now
  | .extendLease jobId w _ => decide (r.id ∈ [jobId]) && r.heldBy w
  | .extendLeases jobIds w _ => decide (r.id ∈ jobIds) && r.heldBy w
  | .deadLetterExpired _ => r.expired c.now && r.poisoned
  | .recoverExpired _ => r.expired c.now
  | .releaseJobs jobIds w => decide (r.id ∈ jobIds) && r.heldBy w
  | .markSucceeded jobId w => decide (r.id ∈ [jobId]) && r.heldBy w
  | .retryJob jobId => decide (r.id = jobId) && decide (r.status = .dead)
  | .deleteCompletedJobs olderThan _ => r.finishedBefore (c.now - olderThan)
  | _ => false

/-- `ORDER BY`, or the order of the scan. -/
def order (c : Call) : Job → Job → Prop :=
  match c.op with
  | .claimJobs .. => Job.claimOrder
  | .deleteCompletedJobs .. => Job.scanOrder id
  | _ => Job.scanOrder c.rank

instance (c : Call) : DecidableRel c.order := by
  unfold order
  cases c.op <;> infer_instance

instance (c : Call) : Std.Total c.order := by
  unfold order
  cases c.op <;> infer_instance

instance (c : Call) : IsTrans Job c.order := by
  unfold order
  cases c.op <;> infer_instance

theorem id_eq_of_order {c : Call} {a b : Job} (h : c.order a b) (h' : c.order b a) :
    a.id = b.id := by
  have hclaim (h : Job.claimOrder a b) (h' : Job.claimOrder b a) : a.id = b.id := by
    unfold Job.claimOrder at h h'
    omega
  have hscan {rank : Nat → Nat} (h : Job.scanOrder rank a b) (h' : Job.scanOrder rank b a) :
      a.id = b.id := by
    unfold Job.scanOrder at h h'
    omega
  unfold order at h h'
  cases hop : c.op <;> rw [hop] at h h'
  case claimJobs => exact hclaim h h'
  all_goals exact hscan h h'

/-- `LIMIT`. -/
def limit (c : Call) : Option Nat :=
  match c.op with
  | .claimJobs _ _ batch => some batch
  | .deadLetterExpired batch => some batch
  | .recoverExpired batch => some batch
  | .deleteCompletedJobs _ batch => some batch
  | _ => none

/-- `SET`; a `DELETE` has none. -/
def clause (c : Call) : Option SetClause :=
  match c.op with
  | .claimJobs w lease _ => some (.claim w (c.now + seconds lease))
  | .extendLease _ _ lease => some (.extend (c.now + seconds lease))
  | .extendLeases _ _ lease => some (.extend (c.now + seconds lease))
  | .deadLetterExpired _ => some (.deadLetter c.now)
  | .recoverExpired _ => some .recover
  | .releaseJobs .. => some .release
  | .markSucceeded .. => some (.succeed c.now)
  | .retryJob _ => some (.retry c.now)
  | _ => none

/-- The statement on the rows it has taken. -/
def write (c : Call) (t : Jobs) (rows : List Job) : Jobs :=
  match c.clause with
  | some s => t.updateIn rows s
  | none => t.delete fun r ↦ decide (r.id ∈ rows.map Job.id)

/-- The rows that meet the condition, in the order in which the statement comes to them. -/
def targets (c : Call) (t : Jobs) : List Job := (t.rows.filter c.cand).insertionSort c.order

/-- The rows that the call affects when it is one step. -/
def picked (c : Call) (t : Jobs) : List Job :=
  let free := (t.rows.filter fun r ↦ c.cand r && !(c.op.skipsLocked && c.locked r.id))
  c.limit.elim (free.insertionSort c.order) (free.insertionSort c.order).take

/-- The id that a call about a single job names. -/
def about (c : Call) : Option Nat :=
  match c.op with
  | .extendLease jobId .. => some jobId
  | .markSucceeded jobId _ => some jobId
  | .retryJob jobId => some jobId
  | _ => none

/-- The call as it is where these rows are out of its reach: it finds them locked, or is not about
them.  `none` is a call about one such row, which comes to nothing. -/
def sparing (c : Call) (missed : Nat → Bool) : Option Call :=
  match c.op with
  | .extendLeases jobIds w lease =>
      some { c with op := .extendLeases (jobIds.filter fun id ↦ !missed id) w lease }
  | .releaseJobs jobIds w =>
      some { c with op := .releaseJobs (jobIds.filter fun id ↦ !missed id) w }
  | _ =>
      match c.about with
      | some jobId => if missed jobId then none else some c
      | none => some { c with locked := missed }

end Call

/-! ## A statement picks rows and writes them -/

namespace Jobs

variable {t : Jobs}

theorem mem_ids_iff {r : Job} {rows : List Job} (hr : r ∈ t.rows) (hrows : ∀ x ∈ rows, x ∈ t.rows) :
    r.id ∈ rows.map Job.id ↔ r ∈ rows :=
  mem_map_id_iff hrows (row_of_mem hr)

theorem update_eq_updateIn {p : Job → Bool} {rows : List Job} (s : SetClause)
    (h : ∀ r, r ∈ rows ↔ r ∈ t.rows ∧ p r = true) : t.update p s = t.updateIn rows s := by
  refine Jobs.ext (List.map_congr_left fun r hr ↦ ?_) rfl
  have hiff : p r = true ↔ decide (r.id ∈ rows.map Job.id) = true := by
    rw [decide_eq_true_eq, mem_ids_iff hr fun x hx ↦ ((h x).mp hx).1, h r, and_iff_right hr]
  simp only [hiff]

end Jobs

namespace Call

variable {c : Call} {t : Jobs} {rows : List Job} {r : Job}

-- Rows that a statement without LIMIT picks.
theorem mem_picked (hlimit : c.limit = none) (hskips : c.op.skipsLocked = false) :
    r ∈ c.picked t ↔ r ∈ t.rows ∧ c.cand r = true := by
  unfold picked
  rw [hlimit, hskips]
  simp only [Option.elim_none, Bool.false_and, Bool.not_false, Bool.and_true]
  rw [(List.perm_insertionSort c.order _).mem_iff, List.mem_filter]

/-- Every one of these calls is its statement on the rows that it picks. -/
theorem run_eq_write (hop : c.op.isStatement = true) (t : Jobs) :
    c.run t = c.write t (c.picked t) := by
  obtain ⟨ctx, op⟩ := c
  cases op with
  | enqueue | enqueueMany | markFailed => cases hop
  | claimJobs | deadLetterExpired | recoverExpired | deleteCompletedJobs => rfl
  | extendLease | extendLeases | releaseJobs | markSucceeded | retryJob =>
      exact Jobs.update_eq_updateIn _ fun r ↦ mem_picked rfl rfl

theorem write_nil (c : Call) (t : Jobs) : c.write t [] = t := by
  unfold write
  cases c.clause with
  | some s =>
      refine Jobs.ext ?_ rfl
      exact (List.map_congr_left fun _ _ ↦ rfl).trans (List.map_id _)
  | none =>
      refine Jobs.ext ?_ rfl
      exact List.filter_eq_self.mpr fun _ _ ↦ rfl

theorem write_perm {rows' : List Job} (h : rows.Perm rows') : c.write t rows = c.write t rows' := by
  have hmem (id : Nat) : id ∈ rows.map Job.id ↔ id ∈ rows'.map Job.id := (h.map Job.id).mem_iff
  unfold write Jobs.updateIn
  simp only [hmem]

theorem id_eq_of_cand {jobId : Nat} (h : c.about = some jobId) (hr : c.cand r = true) :
    r.id = jobId := by
  obtain ⟨ctx, op⟩ := c
  cases op with
  | extendLease id w | markSucceeded id w =>
      cases h
      have hr : (decide (r.id ∈ [jobId]) && r.heldBy w) = true := hr
      exact List.mem_singleton.mp (of_decide_eq_true (Bool.and_eq_true_iff.mp hr).1)
  | retryJob id =>
      cases h
      have hr : (decide (r.id = jobId) && decide (r.status = .dead)) = true := hr
      exact of_decide_eq_true (Bool.and_eq_true_iff.mp hr).1
  | _ => cases h

theorem mem_targets : r ∈ c.targets t ↔ r ∈ t.rows ∧ c.cand r = true := by
  unfold targets
  rw [(List.perm_insertionSort c.order _).mem_iff, List.mem_filter]

theorem row_write {id : Nat} (hid : id ∉ rows.map Job.id) : (c.write t rows).row id = t.row id := by
  have hne {r : Job} (hr : t.row id = some r) : decide (r.id ∈ rows.map Job.id) = false :=
    decide_eq_false (by rw [Jobs.row_id hr]; exact hid)
  unfold write
  cases c.clause with
  | some s =>
      simp only [Jobs.updateIn, Jobs.row_update]
      cases hr : t.row id with
      | none => rfl
      | some r =>
          rw [Option.map_some, hne hr]
          rfl
  | none =>
      simp only [Jobs.row_delete]
      cases hr : t.row id with
      | none => rfl
      | some r =>
          rw [Option.filter_some, hne hr]
          rfl

end Call

/-! ## Row by row -/

/-- A call that is one statement. -/
abbrev Statement := { c : Call // c.op.isStatement = true }

/-- Any other call, as one step. -/
abbrev OtherCall := { c : Call // c.op.isStatement = false }

def otherCall (t : Jobs) (c : OtherCall) : Jobs := c.1.run t

/-- The table as the statements see it. -/
def jobStore : RowStore Jobs Nat Job Statement where
  row := Jobs.row
  key := Job.id
  targets c := c.1.targets
  cand c := c.1.cand
  precedes c a b := !decide (c.1.order b a)
  limit c := c.1.limit
  skips c := c.1.op.skipsLocked
  write t c rows := c.1.write t rows
  row_key := Jobs.row_id
  targets_nodup c t := nodup_insertionSort_filter t.idsNodup c.1.cand c.1.order
  mem_targets {c t r} := by
    rw [Call.mem_targets]
    exact and_congr_left fun _ ↦ ⟨Jobs.row_of_mem, Jobs.row_mem⟩
  targets_sorted c t := by
    refine (List.pairwise_insertionSort c.1.order _).imp fun horder ↦ ?_
    rw [decide_eq_true horder, Bool.not_true]
  key_eq {c a b} h h' := by
    rw [Bool.not_eq_false', decide_eq_true_eq] at h h'
    exact Call.id_eq_of_order h' h
  row_write _ _ _ _ := Call.row_write

/-- Any number of statements at a time on one table. -/
def contendedJobs : System (Contended Jobs Nat Job Statement) (ContendedAct Statement OtherCall) :=
  jobStore.contended otherCall

/-- The calls one after the other, each without the rows that have escaped its statement, and with
the rows that it has taken as the rows that the call affects. -/
def serialCalls : System Jobs (RowStore.Done Jobs Nat Job Statement OtherCall) where
  init _ := True
  step t a u := match a with
    | .statement x =>
        match x.stmt.1.sparing (jobStore.missed x t) with
        | some c => u = c.run t ∧ x.taken.Perm (c.picked t)
        | none => u = t ∧ x.taken = []
    | .other c => u = c.1.run t

/-! ## Every interleaving as a run of single calls -/

namespace Statement

variable {c : Statement} {d : Call} {missed : Nat → Bool} {t u : Jobs}

theorem picks_eq (c : Statement) (missed : Nat → Bool) (t : Jobs) :
    jobStore.picks c missed t =
      let free := t.rows.filter fun r ↦ c.1.cand r && !missed r.id
      c.1.limit.elim (free.insertionSort c.1.order) (free.insertionSort c.1.order).take := by
  have hfree : (c.1.targets t).filter (fun r ↦ !missed r.id) =
      (t.rows.filter fun r ↦ c.1.cand r && !missed r.id).insertionSort c.1.order := by
    unfold Call.targets
    rw [filter_insertionSort, List.filter_filter]
    exact congrArg (List.insertionSort c.1.order ·) (List.filter_congr fun _ _ ↦ Bool.and_comm _ _)
  change c.1.limit.elim ((c.1.targets t).filter fun r ↦ !missed r.id)
    ((c.1.targets t).filter fun r ↦ !missed r.id).take = _
  rw [hfree]

-- A call about a job that has not escaped.
theorem picked_about {jobId : Nat} (habout : c.1.about = some jobId)
    (hskips : c.1.op.skipsLocked = false) (hid : missed jobId = false) :
    c.1.picked t = jobStore.picks c missed t := by
  have hfree : (t.rows.filter fun r ↦ c.1.cand r && !(c.1.op.skipsLocked && c.1.locked r.id)) =
      t.rows.filter fun r ↦ c.1.cand r && !missed r.id := by
    refine List.filter_congr fun r _ ↦ ?_
    rw [hskips]
    cases hr : c.1.cand r with
    | false => rfl
    | true =>
        rw [Call.id_eq_of_cand habout hr, hid]
        rfl
  rw [picks_eq]
  unfold Call.picked
  rw [hfree]

-- A row that is among the ids, and has not escaped.
theorem held_filter (jobIds : List Nat) (w : WorkerId) (r : Job) :
    (decide (r.id ∈ jobIds.filter fun id ↦ !missed id) && r.heldBy w) =
      (decide (r.id ∈ jobIds) && r.heldBy w && !missed r.id) := by
  rw [Bool.eq_iff_iff]
  simp only [List.mem_filter, Bool.and_eq_true, decide_eq_true_eq]
  exact and_right_comm

theorem picked_sparing (h : c.1.sparing missed = some d) :
    d.picked t = jobStore.picks c missed t := by
  obtain ⟨⟨ctx, op⟩, hop⟩ := c
  cases op with
  | enqueue | enqueueMany | markFailed => cases hop
  | claimJobs | deadLetterExpired | recoverExpired | deleteCompletedJobs =>
      cases h
      rw [picks_eq]
      rfl
  | extendLeases jobIds w | releaseJobs jobIds w =>
      cases h
      rw [picks_eq]
      change List.insertionSort _ _ = List.insertionSort _ _
      refine congrArg (List.insertionSort _ ·) (List.filter_congr fun r _ ↦ ?_)
      exact (Bool.and_true _).trans (held_filter jobIds w r)
  | extendLease jobId | markSucceeded jobId | retryJob jobId =>
      change (if missed jobId then none else some _) = some d at h
      split at h
      · cases h
      · rename_i hid
        cases h
        exact picked_about rfl rfl (Bool.not_eq_true _ ▸ hid)

theorem picks_eq_nil (h : c.1.sparing missed = none) : jobStore.picks c missed t = [] := by
  have hnil {jobId : Nat} (habout : c.1.about = some jobId) (hid : missed jobId = true) :
      t.rows.filter (fun r ↦ c.1.cand r && !missed r.id) = [] := by
    refine List.filter_eq_nil_iff.mpr fun r _ hr ↦ ?_
    obtain ⟨hcand, hfree⟩ := Bool.and_eq_true_iff.mp hr
    rw [Call.id_eq_of_cand habout hcand, hid] at hfree
    exact Bool.false_ne_true hfree
  obtain ⟨⟨ctx, op⟩, hop⟩ := c
  cases op with
  | enqueue | enqueueMany | markFailed => cases hop
  | claimJobs | deadLetterExpired | recoverExpired | deleteCompletedJobs | extendLeases
  | releaseJobs => cases h
  | extendLease jobId | markSucceeded jobId | retryJob jobId =>
      change (if missed jobId then none else some _) = none at h
      split at h
      · rename_i hid
        rw [picks_eq, hnil rfl hid]
        rfl
      · cases h

theorem clause_sparing (h : c.1.sparing missed = some d) :
    d.clause = c.1.clause ∧ d.op.isStatement = true := by
  obtain ⟨⟨ctx, op⟩, hop⟩ := c
  cases op with
  | enqueue | enqueueMany | markFailed => cases hop
  | claimJobs | deadLetterExpired | recoverExpired | deleteCompletedJobs | extendLeases
  | releaseJobs =>
      cases h
      exact ⟨rfl, rfl⟩
  | extendLease jobId | markSucceeded jobId | retryJob jobId =>
      change (if missed jobId then none else some _) = some d at h
      split at h
      · cases h
      · cases h
        exact ⟨rfl, rfl⟩

theorem serial_of_step {e : RowStore.Done Jobs Nat Job Statement OtherCall}
    (ha : (jobStore.wholesale otherCall).step t e u) : serialCalls.step t e u := by
  cases e with
  | statement x =>
      obtain ⟨htaken, rfl⟩ := ha
      change match x.stmt.1.sparing (jobStore.missed x t) with
        | some c => _
        | none => _
      cases hd : x.stmt.1.sparing (jobStore.missed x t) with
      | some d =>
          obtain ⟨hclause, hop⟩ := clause_sparing hd
          rw [← picked_sparing hd] at htaken
          refine ⟨?_, htaken.symm⟩
          rw [Call.run_eq_write hop, Call.write_perm htaken]
          change x.stmt.1.write t x.taken = d.write t x.taken
          unfold Call.write
          rw [hclause]
      | none =>
          rw [picks_eq_nil hd] at htaken
          have hnil : x.taken = [] := List.nil_perm.mp htaken
          refine ⟨?_, hnil⟩
          rw [hnil]
          exact x.stmt.1.write_nil t
  | other c => exact ha

-- With no row locked by others the call picks what its statement takes by itself.
theorem picked_eq_all (hfree : ∀ id, c.1.locked id = false) :
    c.1.picked t = jobStore.all c t := by
  have hfilter : (t.rows.filter fun r ↦ c.1.cand r && !(c.1.op.skipsLocked && c.1.locked r.id)) =
      t.rows.filter c.1.cand := by
    refine List.filter_congr fun r _ ↦ ?_
    rw [hfree, Bool.and_false, Bool.not_false, Bool.and_true]
  change Option.elim c.1.limit _ _ = Option.elim c.1.limit (c.1.targets t) (c.1.targets t).take
  rw [hfilter]
  rfl

end Statement

/-- Whatever the interleaving of their row locks, snapshots, commits and crashes, the statements
that commit have done, one after the other, what the calls do and answer without the rows that have
escaped them.  What a LIMIT has left escapes only if it, or a row that has been taken, has been
written since the snapshot.  No two open statements hold one job; and by itself a statement does
just what the call does. -/
theorem statements_are_calls {t : Jobs} {s : Contended Jobs Nat Job Statement}
    {es : List (RowStore.Done Jobs Nat Job Statement OtherCall)}
    (h : contendedJobs.Observed RowStore.shows (.start t) es s) :
    serialCalls.Run t es s.store ∧
      (∀ n x, s.opened n = some x → ∀ id, jobStore.overtakes x s.store id = true →
        s.store.row id ≠ x.snapshot.row id ∨ ∃ r ∈ x.taken, x.snapshot.row r.id ≠ some r) ∧
      (∀ n n' x x', n ≠ n' → s.opened n = some x → s.opened n' = some x' →
        ∀ r ∈ x.taken, s.store.row r.id = some r ∧ r.id ∉ x'.taken.map Job.id) ∧
      ∀ c : Statement, (∀ id, c.1.locked id = false) →
        ∃ as, contendedJobs.Run (.start t) as (.start (c.1.run t)) := by
  obtain ⟨hrun, hinv⟩ := RowStore.observed_wholesale h
  refine ⟨hrun.mono fun _ _ _ ↦ Statement.serial_of_step, fun n x hx id hover ↦ ?_,
    fun n n' x x' hne hx hx' r hr ↦ ?_, fun c hfree ↦ ?_⟩
  · exact (hinv.holds n x hx).overtakes_changed hover
  · exact ⟨((hinv.holds n x hx).found r hr).1,
      hinv.disjoint n n' x x' r.id hne hx hx' (List.mem_map_of_mem hr)⟩
  · rw [Call.run_eq_write c.2, Statement.picked_eq_all hfree]
    exact jobStore.run_alone otherCall t c

def twoPending : Jobs :=
  runCalls .empty [⟨.alone 0, .enqueue "t" "1" none⟩, ⟨.alone 0, .enqueue "t" "2" none⟩]

def firstPending : Job := Job.insert 1 "t" "1" none 0

def secondPending : Job := Job.insert 2 "t" "2" none 0

def claimOfOne (w : WorkerId) : Statement := ⟨⟨.alone 0, .claimJobs w 30 1⟩, rfl⟩

/-- A claim of one of the two jobs under way. -/
def claiming (w : WorkerId) (todo taken : List Job) (skipped : List Nat) :
    OpenStatement Jobs Nat Job Statement :=
  ⟨claimOfOne w, twoPending, todo, taken, skipped, []⟩

-- The second claim comes across the row that the first one has locked and takes the next one, a
-- third finds both locked, and they commit in the opposite order.
theorem threeClaims_observed :
    ∃ s, contendedJobs.Observed RowStore.shows (.start twoPending)
        [.statement (claiming "c" [] [] [1, 2]), .statement (claiming "b" [] [secondPending] [1]),
          .statement (claiming "a" [secondPending] [firstPending] [])] s ∧
      (s.store.row 1).bind Job.lockedBy = some "a" ∧
      (s.store.row 2).bind Job.lockedBy = some "b" := by
  let both := [firstPending, secondPending]
  let s₀ : Contended Jobs Nat Job Statement := .start twoPending
  let s₁ := s₀.set 0 (some (claiming "a" both [] []))
  let s₂ := s₁.set 1 (some (claiming "b" both [] []))
  let s₃ := s₂.set 2 (some (claiming "c" both [] []))
  let s₄ := s₃.set 0 (some (claiming "a" [secondPending] [firstPending] []))
  let s₅ := s₄.set 1 (some (claiming "b" [secondPending] [] [1]))
  let s₆ := s₅.set 1 (some (claiming "b" [] [secondPending] [1]))
  let s₇ := s₆.set 2 (some (claiming "c" [secondPending] [] [1]))
  let s₈ := s₇.set 2 (some (claiming "c" [] [] [1, 2]))
  have hroom {w : WorkerId} : ∀ limit, jobStore.limit (claimOfOne w) = some limit → 0 < limit :=
    fun limit h ↦ Option.some.inj h ▸ Nat.zero_lt_one
  have h₁ : contendedJobs.step s₀ (.begin 0 (claimOfOne "a")) s₁ := .begin rfl
  have h₂ : contendedJobs.step s₁ (.begin 1 (claimOfOne "b")) s₂ := .begin rfl
  have h₃ : contendedJobs.step s₂ (.begin 2 (claimOfOne "c")) s₃ := .begin rfl
  have h₄ : contendedJobs.step s₃ (.take 0) s₄ := by
    refine .take (show s₃.opened 0 = some (claiming "a" both [] []) from rfl) rfl hroom rfl rfl
      fun n x hn hx ↦ ?_
    rcases RowStore.set_cases hx with ⟨-, heq⟩ | ⟨-, hx⟩
    · exact Option.some.inj heq ▸ List.not_mem_nil
    · rcases RowStore.set_cases hx with ⟨-, heq⟩ | ⟨-, hx⟩
      · exact Option.some.inj heq ▸ List.not_mem_nil
      · rcases RowStore.set_cases hx with ⟨h, -⟩ | ⟨-, hx⟩
        · exact absurd h hn
        · cases hx
  have h₅ : contendedJobs.step s₄ (.skip 1) s₅ := by
    refine .skip (show s₄.opened 1 = some (claiming "b" both [] []) from rfl) rfl hroom rfl
      fun hfree ↦ ?_
    exact hfree 0 (claiming "a" [secondPending] [firstPending] []) (by decide) rfl
      (List.mem_singleton_self 1)
  have h₆ : contendedJobs.step s₅ (.take 1) s₆ := by
    refine .take (show s₅.opened 1 = some (claiming "b" [secondPending] [] [1]) from rfl) rfl hroom
      rfl rfl fun n x hn hx ↦ ?_
    rcases RowStore.set_cases hx with ⟨h, -⟩ | ⟨-, hx⟩
    · exact absurd h hn
    · rcases RowStore.set_cases hx with ⟨-, heq⟩ | ⟨hzero, hx⟩
      · exact Option.some.inj heq ▸ show 2 ∉ [1] by decide
      · rcases RowStore.set_cases hx with ⟨-, heq⟩ | ⟨-, hx⟩
        · exact Option.some.inj heq ▸ List.not_mem_nil
        · rcases RowStore.set_cases hx with ⟨h, -⟩ | ⟨-, hx⟩
          · exact absurd h hn
          · rcases RowStore.set_cases hx with ⟨h, -⟩ | ⟨-, hx⟩
            · exact absurd h hzero
            · cases hx
  have h₇ : contendedJobs.step s₆ (.skip 2) s₇ := by
    refine .skip (show s₆.opened 2 = some (claiming "c" both [] []) from rfl) rfl hroom rfl
      fun hfree ↦ ?_
    exact hfree 0 (claiming "a" [secondPending] [firstPending] []) (by decide) rfl
      (List.mem_singleton_self 1)
  have h₈ : contendedJobs.step s₇ (.skip 2) s₈ := by
    refine .skip (show s₇.opened 2 = some (claiming "c" [secondPending] [] [1]) from rfl) rfl hroom
      rfl fun hfree ↦ ?_
    exact hfree 1 (claiming "b" [] [secondPending] [1]) (by decide) rfl (List.mem_singleton_self 2)
  have h₉ : contendedJobs.step s₈ (.commit 2) _ :=
    .commit (show s₈.opened 2 = some (claiming "c" [] [] [1, 2]) from rfl) (Or.inl rfl)
  let t := (claimOfOne "c").1.write twoPending []
  have h₁₀ : contendedJobs.step { s₈.set 2 none with store := t } (.commit 1) _ :=
    .commit (show s₈.opened 1 = some (claiming "b" [] [secondPending] [1]) from rfl) (Or.inl rfl)
  let u := (claimOfOne "b").1.write t [secondPending]
  have h₁₁ : contendedJobs.step { (s₈.set 2 none).set 1 none with store := u } (.commit 0) _ :=
    .commit (show s₈.opened 0 = some (claiming "a" [secondPending] [firstPending] []) from rfl)
      (Or.inr rfl)
  exact ⟨_, .cons h₁ <| .cons h₂ <| .cons h₃ <| .cons h₄ <| .cons h₅ <| .cons h₆ <| .cons h₇ <|
    .cons h₈ <| .cons h₉ <| .cons h₁₀ <| .cons h₁₁ <| .nil _, rfl, rfl⟩

theorem statements_are_calls_claims :
    ∃ t, serialCalls.Run twoPending
        [.statement (claiming "c" [] [] [1, 2]), .statement (claiming "b" [] [secondPending] [1]),
          .statement (claiming "a" [secondPending] [firstPending] [])] t ∧
      (t.row 1).bind Job.lockedBy = some "a" ∧ (t.row 2).bind Job.lockedBy = some "b" := by
  obtain ⟨s, hrun, ha, hb⟩ := threeClaims_observed
  exact ⟨s.store, (statements_are_calls hrun).1, ha, hb⟩

end DurableQueue
