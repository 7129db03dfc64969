import DurableQueue.Jobs.Statements

/-!
# What a call does to one row

The calls of `jobs.py` as one type, and the inversion lemma that every invariant of the table is
proved from: seen from a single id, a call inserts, deletes, leaves alone, or makes one of nine
changes under the guard of its `WHERE` clause.
-/

open Reasoning

namespace DurableQueue

/-- A call with its arguments.  `reap_expired_jobs` is two of them, one for each UPDATE. -/
inductive JobOp where
  | enqueue (task : String) (args : Json) (key : Option String)
  | enqueueMany (task : String) (argsList : List Json) (keys : Option (List (Option String)))
  | claimJobs (workerId : WorkerId) (leaseSeconds : Int) (batchSize : Nat)
  | extendLease (jobId : Nat) (workerId : WorkerId) (leaseSeconds : Int)
  | extendLeases (jobIds : List Nat) (workerId : WorkerId) (leaseSeconds : Int)
  | deadLetterExpired (reapBatch : Nat)
  | recoverExpired (reapBatch : Nat)
  | releaseJobs (jobIds : List Nat) (workerId : WorkerId)
  | markSucceeded (jobId : Nat) (workerId : WorkerId)
  | markFailed (jobId : Nat) (workerId : WorkerId) (error : PyStr) (permanent : Bool)
      (maxAttempts : Option Int) (draw : Int)
  | retryJob (jobId : Nat)
  | deleteCompletedJobs (olderThan : Int) (batch : Nat)

def JobOp.enqueues : JobOp → Bool
  | .enqueue .. => true
  | .enqueueMany .. => true
  | _ => false

-- The worker id a call carries.
def JobOp.workerId : JobOp → Option WorkerId
  | .claimJobs w .. => some w
  | .extendLease _ w _ => some w
  | .extendLeases _ w _ => some w
  | .releaseJobs _ w => some w
  | .markSucceeded _ w => some w
  | .markFailed _ w .. => some w
  | _ => none

def JobOp.isSweep : JobOp → Bool
  | .deadLetterExpired _ => true
  | .recoverExpired _ => true
  | _ => false

structure Call extends Ctx where
  op : JobOp

-- A call that raises leaves the rows as they were.
def Call.run (c : Call) (t : Jobs) : Jobs :=
  match c.op with
  | .enqueue task args key => (t.enqueue task args key c.now).1
  | .enqueueMany task argsList keys =>
      ((t.enqueueMany task argsList keys c.now).map (·.1)).getD
        (t.skipIds (t.enqueueManyDrawn task argsList keys c.now))
  | .claimJobs w lease batch => (t.claimJobs c.toCtx w lease batch).1
  | .extendLease id w lease => t.extendLease c.toCtx id w lease
  | .extendLeases ids w lease => t.extendLeases c.toCtx ids w lease
  | .deadLetterExpired batch => (t.deadLetterExpired c.toCtx batch).1
  | .recoverExpired batch => (t.recoverExpired c.toCtx batch).1
  | .releaseJobs ids w => (t.releaseJobs ids w).1
  | .markSucceeded id w => (t.markSucceeded c.toCtx id w).1
  | .markFailed id w error permanent maxAttempts draw =>
      ((t.markFailed c.toCtx id w error permanent maxAttempts draw).map (·.1)).getD t
  | .retryJob id => (t.retryJob c.toCtx id).1
  | .deleteCompletedJobs olderThan batch => (t.deleteCompletedJobs c.toCtx olderThan batch).1

theorem Jobs.reapExpiredJobs_eq (t : Jobs) (first second : Ctx) (batch : Nat) :
    (t.reapExpiredJobs first second batch).1 =
      Call.run ⟨second, .recoverExpired batch⟩ (Call.run ⟨first, .deadLetterExpired batch⟩ t) :=
  rfl

/-! ## One lemma for each shape of statement -/

namespace Jobs

variable {t : Jobs} {id : Nat}

theorem row_append_cases {task : String} {args : Json} {key : Option String} {now : Int}
    (hkey : ∀ k, key = some k → t.rowWithKey k = none) :
    (t.append task args key now hkey).row id = t.row id ∨ t.row id = none ∧
      (t.append task args key now hkey).row id = some (Job.insert id task args key now) := by
  rw [row_append]
  by_cases hid : t.nextId = id
  · subst hid
    exact Or.inr ⟨t.row_nextId, if_pos rfl⟩
  · exact Or.inl (if_neg hid)

theorem onConflict_apply (key : String) (r : Job) : SetClause.onConflict key r = r := by
  change (if r.idempotencyKey = some key then _ else r) = r
  split
  · rename_i h
    rw [← h]
  · rfl

theorem row_enqueue (t : Jobs) (id : Nat) (task : String) (args : Json) (key : Option String)
    (now : Int) :
    (t.enqueue task args key now).1.row id = t.row id ∨
      t.row id = none ∧
        (t.enqueue task args key now).1.row id = some (Job.insert id task args key now) := by
  unfold enqueue
  split
  · exact row_append_cases (by simp)
  · split
    · rename_i h
      exact row_append_cases fun _ hk ↦ Option.some.inj hk ▸ h
    · -- the conflict's UPDATE writes the key that is there
      left
      simp only [row_skipId, row_update, onConflict_apply, ite_self, Option.map_id']

theorem row_enqueue_of_some {r : Job} (task : String) (args : Json) (key : Option String)
    (now : Int) (hr : t.row id = some r) : (t.enqueue task args key now).1.row id = some r := by
  rcases row_enqueue t id task args key now with hsame | ⟨hnone, -⟩
  · rw [hsame, hr]
  · exact absurd (hr.symm.trans hnone) (Option.some_ne_none r)

-- The id that an enqueue returns is that of the row with the key.
theorem row_enqueue_id (t : Jobs) (task : String) (args : Json) (key : String) (now : Int) :
    ∃ r, (t.enqueue task args (some key) now).1.row (t.enqueue task args (some key) now).2 =
      some r ∧ r.idempotencyKey = some key := by
  cases hk : t.rowWithKey key with
  | none =>
      have he : t.enqueue task args (some key) now =
          (t.append task args (some key) now (by simp [hk]), t.nextId) := by
        unfold enqueue
        simp only
        split
        · rfl
        · rename_i r hr
          exact absurd (hr.symm.trans hk) (Option.some_ne_none r)
      rw [he]
      refine ⟨Job.insert t.nextId task args (some key) now, ?_, rfl⟩
      rw [row_append, if_pos rfl]
  | some r =>
      obtain ⟨hmem, hkey⟩ := rowWithKey_some hk
      have hid : (t.enqueue task args (some key) now).2 = r.id := by
        unfold enqueue
        simp only
        split
        · rename_i hnone
          exact absurd (hk.symm.trans hnone) (Option.some_ne_none r)
        · rename_i r' hr'
          rw [Option.some.inj (hr'.symm.trans hk)]
      rw [hid]
      exact ⟨r, row_enqueue_of_some task args (some key) now (row_of_mem hmem), hkey⟩

-- An id that has been drawn from the sequence is not drawn again.
theorem row_enqueue_of_lt (task : String) (args : Json) (key : Option String) (now : Int)
    (hid : id < t.nextId) :
    (t.enqueue task args key now).1.row id = t.row id ∧
      id < (t.enqueue task args key now).1.nextId := by
  have happend {key : Option String} (hkey : ∀ k, key = some k → t.rowWithKey k = none) :
      (t.append task args key now hkey).row id = t.row id ∧
        id < (t.append task args key now hkey).nextId := by
    rw [row_append, if_neg hid.ne']
    exact ⟨rfl, Nat.lt_succ_of_lt hid⟩
  unfold enqueue
  split
  · exact happend (by simp)
  · split
    · rename_i h
      exact happend fun _ hk ↦ Option.some.inj hk ▸ h
    · simp only [row_skipId, row_update, onConflict_apply, ite_self, Option.map_id']
      exact ⟨trivial, Nat.lt_succ_of_lt hid⟩

theorem row_enqueueRows_of_lt {task : String} {now : Int} {items : List (Json × Option String)}
    {touched : List Nat} {u : Jobs} {ids : List Nat} (hid : id < t.nextId)
    (h : enqueueRows task now t touched items = some (u, ids)) :
    u.row id = t.row id ∧ id < u.nextId := by
  induction items generalizing t touched u ids with
  | nil =>
      cases h
      exact ⟨rfl, hid⟩
  | cons item rest ih =>
      obtain ⟨args, key⟩ := item
      rw [enqueueRows] at h
      split at h
      · cases h
      · obtain ⟨⟨v, ids'⟩, hv, he⟩ := Option.map_eq_some_iff.mp h
        cases he
        obtain ⟨hrow, hlt⟩ := row_enqueue_of_lt task args key now hid
        obtain ⟨hrow', hlt'⟩ := ih hlt hv
        exact ⟨hrow'.trans hrow, hlt'⟩

theorem row_enqueueRows (id : Nat) {task : String} {now : Int} {items : List (Json × Option String)}
    {touched : List Nat} {u : Jobs} {ids : List Nat}
    (h : enqueueRows task now t touched items = some (u, ids)) :
    u.row id = t.row id ∨
      t.row id = none ∧ ∃ args key, u.row id = some (Job.insert id task args key now) := by
  induction items generalizing t touched u ids with
  | nil =>
      cases h
      exact Or.inl rfl
  | cons item rest ih =>
      obtain ⟨args, key⟩ := item
      rw [enqueueRows] at h
      split at h
      · cases h
      · obtain ⟨⟨v, ids'⟩, hv, he⟩ := Option.map_eq_some_iff.mp h
        cases he
        rcases row_enqueue t id task args key now with hsame | ⟨hnone, hnew⟩
        · rw [← hsame]
          exact ih hv
        · right
          refine ⟨hnone, ?_⟩
          rcases ih hv with hsame | ⟨hnone', _⟩
          · exact ⟨args, key, hsame.trans hnew⟩
          · exact absurd (hnew.symm.trans hnone') (Option.some_ne_none _)

theorem enqueueMany_cases {task : String} {argsList : List Json}
    {keys : Option (List (Option String))} {now : Int} {u : Jobs} {ids : List Nat}
    (h : t.enqueueMany task argsList keys now = some (u, ids)) :
    u = t ∨ ∃ items, enqueueRows task now t [] items = some (u, ids) := by
  unfold enqueueMany at h
  split at h
  · cases h
    exact Or.inl rfl
  · simp only at h
    split at h
    · cases h
    · exact Or.inr ⟨_, h⟩

theorem mem_map_id_iff {r : Job} {sel : List Job} (hsel : ∀ x ∈ sel, x ∈ t.rows)
    (hr : t.row id = some r) : r.id ∈ sel.map Job.id ↔ r ∈ sel := by
  refine ⟨fun h ↦ ?_, List.mem_map_of_mem⟩
  obtain ⟨x, hx, he⟩ := List.mem_map.mp h
  have hrow := row_of_mem (hsel x hx)
  rw [he, row_id hr, hr] at hrow
  exact Option.some.inj hrow ▸ hx

theorem mem_selectForUpdate {ctx : Ctx} {cand : Job → Bool} {before : Job → Job → Prop}
    [DecidableRel before] {limit : Nat} {r : Job}
    (h : r ∈ t.selectForUpdate ctx cand before limit) :
    r ∈ t.rows ∧ cand r ∧ ctx.locked r.id = false := by
  obtain ⟨hr, hc⟩ := mem_of_mem_selectRows h
  rw [Bool.and_eq_true, Bool.not_eq_true'] at hc
  exact ⟨hr, hc⟩

-- An `UPDATE ... WHERE id IN (SELECT ...)` changes a row only if the SELECT picked it.
theorem row_updateIn (id : Nat) {sel : List Job} (hsel : ∀ x ∈ sel, x ∈ t.rows) (s : SetClause) :
    (t.updateIn sel s).row id = t.row id ∨
      ∃ r, r ∈ sel ∧ t.row id = some r ∧ (t.updateIn sel s).row id = some (s r) := by
  rw [updateIn, row_update]
  cases hr : t.row id with
  | none => exact Or.inl rfl
  | some r =>
      rw [Option.map_some]
      by_cases hmem : r.id ∈ sel.map Job.id
      · rw [if_pos (decide_eq_true hmem)]
        exact Or.inr ⟨r, (mem_map_id_iff hsel hr).mp hmem, rfl, rfl⟩
      · rw [if_neg (by simpa only [decide_eq_true_eq] using hmem)]
        exact Or.inl rfl

theorem row_updateIn_of_mem {sel : List Job} {r : Job} (hr : t.row id = some r) (hmem : r ∈ sel)
    (s : SetClause) : (t.updateIn sel s).row id = some (s r) := by
  rw [updateIn, row_update, hr, Option.map_some, if_pos]
  exact decide_eq_true (List.mem_map_of_mem hmem)

theorem row_claimJobs (t : Jobs) (id : Nat) (ctx : Ctx) (w : WorkerId) (lease : Int)
    (batch : Nat) :
    (t.claimJobs ctx w lease batch).1.row id = t.row id ∨
      ∃ r, r ∈ t.claimable ctx batch ∧ t.row id = some r ∧
        (t.claimJobs ctx w lease batch).1.row id =
          some (SetClause.claim w (ctx.now + seconds lease) r) :=
  row_updateIn id (fun _ hx ↦ (mem_selectForUpdate hx).1) _

theorem claimJobs_perm (t : Jobs) (ctx : Ctx) (w : WorkerId) (lease : Int) (batch : Nat) :
    (t.claimJobs ctx w lease batch).2.Perm
      ((t.claimable ctx batch).map fun r ↦ (r.id, r.task, r.args)) :=
  (List.perm_insertionSort _ _).map _

-- A claim returns exactly the jobs it has changed.
theorem claimJobs_returned (t : Jobs) (id : Nat) (ctx : Ctx) (w : WorkerId) (lease : Int)
    (batch : Nat) :
    id ∉ (t.claimJobs ctx w lease batch).2.map (·.1) ∧
        (t.claimJobs ctx w lease batch).1.row id = t.row id ∨
      id ∈ (t.claimJobs ctx w lease batch).2.map (·.1) ∧ ∃ r, t.row id = some r ∧
        r.due ctx.now ∧ ctx.locked id = false ∧ (t.claimJobs ctx w lease batch).1.row id =
          some (SetClause.claim w (ctx.now + seconds lease) r) := by
  have hids : id ∈ (t.claimJobs ctx w lease batch).2.map (·.1) ↔
      id ∈ (t.claimable ctx batch).map Job.id := by
    rw [((t.claimJobs_perm ctx w lease batch).map _).mem_iff, List.map_map]
    rfl
  have hsel : ∀ x ∈ t.claimable ctx batch, x ∈ t.rows := fun _ hx ↦ (mem_selectForUpdate hx).1
  rw [hids]
  by_cases hid : id ∈ (t.claimable ctx batch).map Job.id
  · right
    obtain ⟨r, hr, rfl⟩ := List.mem_map.mp hid
    obtain ⟨hmem, hdue, hfree⟩ := mem_selectForUpdate hr
    have hrow := row_of_mem hmem
    exact ⟨hid, r, hrow, hdue, hfree, row_updateIn_of_mem hrow hr _⟩
  · left
    rcases row_claimJobs t id ctx w lease batch with hsame | ⟨r, hr, hrow, -⟩
    · exact ⟨hid, hsame⟩
    · exact absurd (List.mem_map.mpr ⟨r, hr, row_id hrow⟩) hid

theorem row_deadLetterExpired (t : Jobs) (id : Nat) (ctx : Ctx) (batch : Nat) :
    (t.deadLetterExpired ctx batch).1.row id = t.row id ∨
      ∃ r, r ∈ t.poisonous ctx batch ∧ t.row id = some r ∧
        (t.deadLetterExpired ctx batch).1.row id = some (SetClause.deadLetter ctx.now r) :=
  row_updateIn id (fun _ hx ↦ (mem_selectForUpdate hx).1) _

theorem row_recoverExpired (t : Jobs) (id : Nat) (ctx : Ctx) (batch : Nat) :
    (t.recoverExpired ctx batch).1.row id = t.row id ∨
      ∃ r, r ∈ t.recoverable ctx batch ∧ t.row id = some r ∧
        (t.recoverExpired ctx batch).1.row id = some (SetClause.recover r) :=
  row_updateIn id (fun _ hx ↦ (mem_selectForUpdate hx).1) _

-- A guarded UPDATE changes a row only if the worker holds it.
theorem row_updateHeld (id : Nat) (ids : List Nat) (w : WorkerId) (s : SetClause) :
    (t.updateHeld ids w s).row id = t.row id ∨
      ∃ r, (id ∈ ids ∧ r.heldBy w) ∧ t.row id = some r ∧
        (t.updateHeld ids w s).row id = some (s r) := by
  rw [updateHeld, row_update]
  cases hr : t.row id with
  | none => exact Or.inl rfl
  | some r =>
      rw [Option.map_some]
      by_cases hc : (decide (r.id ∈ ids) && r.heldBy w) = true
      · rw [if_pos hc]
        rw [Bool.and_eq_true, decide_eq_true_eq, row_id hr] at hc
        exact Or.inr ⟨r, hc, rfl, rfl⟩
      · rw [if_neg hc]
        exact Or.inl rfl

theorem row_updateHeld_of_heldBy {ids : List Nat} {w : WorkerId} {r : Job}
    (hr : t.row id = some r) (hid : id ∈ ids) (hheld : r.heldBy w) (s : SetClause) :
    (t.updateHeld ids w s).row id = some (s r) := by
  rw [updateHeld, row_update, hr, Option.map_some, if_pos]
  rw [row_id hr, hheld, decide_eq_true hid, Bool.and_self]

theorem row_updateHeld_of_not_heldBy {ids : List Nat} {w : WorkerId}
    (h : ∀ r, t.row id = some r → id ∈ ids → ¬ r.heldBy w) (s : SetClause) :
    (t.updateHeld ids w s).row id = t.row id := by
  rcases row_updateHeld id ids w s with hs | ⟨r, ⟨hm, hh⟩, hr, -⟩
  · exact hs
  · exact absurd hh (h r hr hm)

end Jobs

/-! ## The outcome of `mark_failed` -/

/-- The row `mark_failed` leaves in place of a row `r` its guard matched. -/
def Job.failed (r : Job) (now : Int) (error : PyStr) (permanent : Bool) (maxAttempts : Option Int)
    (draw : Int) : Option Job :=
  let counted := SetClause.countFailure maxAttempts r
  if !(fitsInt counted.attempts && maxAttempts.all fitsInt) then none
  else if permanent || decide (counted.maxAttempts ≤ counted.attempts) then
    if Jobs.recordable error then some (SetClause.bury now error counted) else none
  else
    match Jobs.computeBackoff counted.attempts draw with
    | none => none
    | some delay =>
        if Jobs.recordable error then some (SetClause.reschedule (now + delay) error counted)
        else none

namespace Jobs

section MarkFailed

variable {t : Jobs} {jobId : Nat} {w : WorkerId} (ctx : Ctx) (error : PyStr) (permanent : Bool)
  (maxAttempts : Option Int) (draw : Int)

theorem markFailed_of_not_held (h : ∀ r, t.row jobId = some r → ¬ r.heldBy w) (id : Nat) :
    (t.markFailed ctx jobId w error permanent maxAttempts draw).map (·.1.row id) =
      some (t.row id) := by
  have hn : (t.row jobId).filter (·.heldBy w) = none := by
    cases hr : t.row jobId with
    | none => rfl
    | some r => rw [Option.filter_some, if_neg (h r hr)]
  unfold markFailed
  rw [hn]
  simp only [Option.map_none, Option.map_some]
  rw [row_updateHeld_of_not_heldBy]
  intro r hr hid
  rw [List.mem_singleton] at hid
  subst hid
  exact h r hr

-- Where the guard matches, `mark_failed` raises or rewrites that one row.
theorem markFailed_of_held {r : Job} (hr : t.row jobId = some r) (hheld : r.heldBy w) (id : Nat) :
    (t.markFailed ctx jobId w error permanent maxAttempts draw).map (·.1.row id) =
      (r.failed ctx.now error permanent maxAttempts draw).map
        fun r' ↦ if id = jobId then some r' else t.row id := by
  -- the second UPDATE finds the row as the first one left it
  have hu (s : SetClause) :
      ((t.updateHeld [jobId] w (.countFailure maxAttempts)).updateId jobId s).row id =
        if id = jobId then some (s (SetClause.countFailure maxAttempts r)) else t.row id := by
    rw [updateId, row_update]
    by_cases he : id = jobId
    · subst he
      have hid : (SetClause.countFailure maxAttempts r).id = id :=
        ((SetClause.countFailure maxAttempts).keepsId r).trans (row_id hr)
      rw [row_updateHeld_of_heldBy hr (List.mem_singleton_self _) hheld, Option.map_some,
        if_pos (decide_eq_true hid), if_pos rfl]
    · rw [if_neg he, row_updateHeld_of_not_heldBy
        (fun _ _ h ↦ absurd (List.mem_singleton.mp h) he)]
      cases hx : t.row id with
      | none => rfl
      | some x =>
          have hne : x.id ≠ jobId := fun h ↦ he ((row_id hx).symm.trans h)
          rw [Option.map_some, if_neg (by simpa using hne)]
  unfold markFailed Job.failed
  rw [hr, Option.filter_some, if_pos hheld]
  simp only [Option.map_some]
  split
  · rfl
  split
  · split
    · rw [Option.map_some, Option.map_some, hu]
    · rfl
  · cases computeBackoff (SetClause.countFailure maxAttempts r).attempts draw with
    | none => rfl
    | some delay =>
        simp only
        split
        · rw [Option.map_some, Option.map_some, hu]
        · rfl

end MarkFailed

end Jobs

/-! ## The inversion lemma -/

/-- What a call may turn the row with some id into, `none` standing for no row. -/
inductive RowChange (c : Call) : Option Job → Option Job → Prop where
  | same (o : Option Job) : RowChange c o o
  | inserted {id : Nat} {task : String} {args : Json} {key : Option String}
      (hop : c.op.enqueues) :
      RowChange c none (some (Job.insert id task args key c.now))
  | claimed {r : Job} {w : WorkerId} {lease : Int} {batch : Nat}
      (hop : c.op = .claimJobs w lease batch) (hdue : r.due c.now)
      (hfree : c.locked r.id = false) :
      RowChange c (some r) (some (SetClause.claim w (c.now + seconds lease) r))
  | extended {r : Job} {w : WorkerId} {lease : Int}
      (hop : c.op = .extendLease r.id w lease ∨
        ∃ ids, r.id ∈ ids ∧ c.op = .extendLeases ids w lease) (hheld : r.heldBy w) :
      RowChange c (some r) (some (SetClause.extend (c.now + seconds lease) r))
  | deadLettered {r : Job} {batch : Nat} (hop : c.op = .deadLetterExpired batch)
      (hexp : r.expired c.now) (hpoison : r.poisoned) (hfree : c.locked r.id = false) :
      RowChange c (some r) (some (SetClause.deadLetter c.now r))
  | recovered {r : Job} {batch : Nat} (hop : c.op = .recoverExpired batch)
      (hexp : r.expired c.now) (hfree : c.locked r.id = false) :
      RowChange c (some r) (some (SetClause.recover r))
  | released {r : Job} {ids : List Nat} {w : WorkerId} (hop : c.op = .releaseJobs ids w)
      (hmem : r.id ∈ ids) (hheld : r.heldBy w) : RowChange c (some r) (some (SetClause.release r))
  | succeeded {r : Job} {w : WorkerId} (hop : c.op = .markSucceeded r.id w) (hheld : r.heldBy w) :
      RowChange c (some r) (some (SetClause.succeed c.now r))
  | failed {r r' : Job} {w : WorkerId} {error : PyStr} {permanent : Bool}
      {maxAttempts : Option Int} {draw : Int}
      (hop : c.op = .markFailed r.id w error permanent maxAttempts draw) (hheld : r.heldBy w)
      (hr' : r.failed c.now error permanent maxAttempts draw = some r') :
      RowChange c (some r) (some r')
  | retried {r : Job} (hop : c.op = .retryJob r.id) (hdead : r.status = .dead) :
      RowChange c (some r) (some (SetClause.retry c.now r))
  | purged {r : Job} {olderThan : Int} {batch : Nat}
      (hop : c.op = .deleteCompletedJobs olderThan batch)
      (hfin : r.finishedBefore (c.now - olderThan)) (hfree : c.locked r.id = false) :
      RowChange c (some r) none

section Inversion

open Jobs

-- A change that is none, or one that `h` describes for the row that is there.
theorem RowChange.of_or {c : Call} {o o' : Option Job} {P : Job → Prop} {f : Job → Job}
    (h : o' = o ∨ ∃ r, P r ∧ o = some r ∧ o' = some (f r))
    (hc : ∀ r, o = some r → P r → RowChange c (some r) (some (f r))) : RowChange c o o' := by
  rcases h with rfl | ⟨r, hp, rfl, rfl⟩
  · exact .same _
  · exact hc r rfl hp

theorem Call.run_row (c : Call) (t : Jobs) (id : Nat) :
    RowChange c (t.row id) ((c.run t).row id) := by
  obtain ⟨ctx, op⟩ := c
  cases op with
  | enqueue task args key =>
      rcases row_enqueue t id task args key ctx.now with h | ⟨h, h'⟩
      · simp only [Call.run, h]
        exact .same _
      · simp only [Call.run, h, h']
        exact .inserted rfl
  | enqueueMany task argsList keys =>
      simp only [Call.run]
      cases he : t.enqueueMany task argsList keys ctx.now with
      -- a cardinality violation undoes the rows inserted before it
      | none => exact .same _
      | some res =>
          rw [Option.map_some, Option.getD_some]
          rcases enqueueMany_cases he with hu | ⟨items, hrows⟩
          · rw [hu]
            exact .same _
          · rcases row_enqueueRows id hrows with h | ⟨h, args, key, h'⟩
            · rw [h]
              exact .same _
            · rw [h, h']
              exact .inserted rfl
  | claimJobs w lease batch =>
      refine .of_or (row_claimJobs t id ctx w lease batch) fun r hr hm ↦ ?_
      obtain ⟨-, hd, hf⟩ := mem_selectForUpdate hm
      exact .claimed rfl hd hf
  | extendLease jobId w lease =>
      refine .of_or (row_updateHeld id [jobId] w _) fun r hr hp ↦ ?_
      obtain rfl := List.mem_singleton.mp hp.1
      exact .extended (Or.inl (by rw [row_id hr])) hp.2
  | extendLeases ids w lease =>
      refine .of_or (row_updateHeld id ids w _) fun r hr hp ↦ ?_
      exact .extended (Or.inr ⟨ids, by rw [row_id hr]; exact hp.1, rfl⟩) hp.2
  | deadLetterExpired batch =>
      refine .of_or (row_deadLetterExpired t id ctx batch) fun r hr hm ↦ ?_
      obtain ⟨-, hd, hf⟩ := mem_selectForUpdate hm
      rw [Bool.and_eq_true] at hd
      exact .deadLettered rfl hd.1 hd.2 hf
  | recoverExpired batch =>
      refine .of_or (row_recoverExpired t id ctx batch) fun r hr hm ↦ ?_
      obtain ⟨-, hd, hf⟩ := mem_selectForUpdate hm
      exact .recovered rfl hd hf
  | releaseJobs ids w =>
      refine .of_or (row_updateHeld id ids w _) fun r hr hp ↦ ?_
      exact .released rfl (by rw [row_id hr]; exact hp.1) hp.2
  | markSucceeded jobId w =>
      refine .of_or (row_updateHeld id [jobId] w _) fun r hr hp ↦ ?_
      obtain rfl := List.mem_singleton.mp hp.1
      exact .succeeded (by rw [row_id hr]) hp.2
  | markFailed jobId w error permanent maxAttempts draw =>
      -- whether its guard matches decides, not which of its UPDATEs come to run
      by_cases hheld : ∃ r, t.row jobId = some r ∧ r.heldBy w
      · obtain ⟨r, hr, hw⟩ := hheld
        have h := markFailed_of_held ctx error permanent maxAttempts draw hr hw id
        simp only [Call.run]
        cases hm : t.markFailed ctx jobId w error permanent maxAttempts draw with
        | none => exact .same _
        | some res =>
            rw [hm, Option.map_some] at h
            obtain ⟨r', hr', he⟩ := Option.map_eq_some_iff.mp h.symm
            rw [Option.map_some, Option.getD_some, ← he]
            split
            · subst id
              rw [hr]
              exact .failed (by rw [row_id hr]) hw hr'
            · exact .same _
      · have h := markFailed_of_not_held ctx error permanent maxAttempts draw
          (fun r hr hw ↦ hheld ⟨r, hr, hw⟩) id
        obtain ⟨res, hm, he⟩ := Option.map_eq_some_iff.mp h
        simp only [Call.run, hm, Option.map_some, Option.getD_some, he]
        exact .same _
  | retryJob jobId =>
      simp only [Call.run, retryJob, row_update]
      cases hr : t.row id with
      | none => exact .same _
      | some r =>
          rw [Option.map_some]
          split
          · rename_i h
            simp only [Bool.and_eq_true, decide_eq_true_eq] at h
            exact .retried (by rw [h.1]) h.2
          · exact .same _
  | deleteCompletedJobs olderThan batch =>
      -- the only call after which a row may be gone
      simp only [Call.run, deleteCompletedJobs, row_delete]
      cases hr : t.row id with
      | none => exact .same _
      | some r =>
          rw [Option.filter_some]
          by_cases hm : r ∈ t.completed ctx olderThan batch
          · obtain ⟨-, hfin, hfree⟩ := mem_selectForUpdate hm
            rw [if_neg (by simpa using ⟨r, hm, rfl⟩)]
            exact .purged rfl hfin hfree
          · rw [if_pos]
            · exact .same _
            · rw [Bool.not_eq_true', decide_eq_false_iff_not]
              exact fun h ↦ hm ((mem_map_id_iff (fun _ hx ↦ (mem_selectForUpdate hx).1) hr).mp h)

-- A row that is gone does not come back under its id.
theorem Call.run_of_lt (c : Call) {t : Jobs} {id : Nat} (hid : id < t.nextId) :
    id < (c.run t).nextId ∧ (t.row id = none → (c.run t).row id = none) := by
  have hc := c.run_row t id
  have hgone (hop : c.op.enqueues = false) (h : t.row id = none) : (c.run t).row id = none := by
    rw [h] at hc
    generalize (c.run t).row id = o at hc ⊢
    cases hc with
    | same => rfl
    | inserted hop' => exact absurd (hop.symm.trans hop') Bool.false_ne_true
  obtain ⟨ctx, op⟩ := c
  cases op with
  | enqueue task args key =>
      have h := row_enqueue_of_lt task args key ctx.now hid
      exact ⟨h.2, h.1.trans⟩
  | enqueueMany task argsList keys =>
      simp only [Call.run]
      cases he : t.enqueueMany task argsList keys ctx.now with
      | none => exact ⟨Nat.lt_add_right _ hid, fun h ↦ h⟩
      | some res =>
          rw [Option.map_some, Option.getD_some]
          rcases enqueueMany_cases he with hu | ⟨items, hrows⟩
          · rw [hu]
            exact ⟨hid, fun h ↦ h⟩
          · exact ⟨(row_enqueueRows_of_lt hid hrows).2, (row_enqueueRows_of_lt hid hrows).1.trans⟩
  | markFailed jobId w error permanent maxAttempts draw =>
      refine ⟨?_, hgone rfl⟩
      simp only [Call.run, markFailed]
      split
      · exact hid
      · split
        · exact hid
        · split
          · split <;> exact hid
          · split
            · exact hid
            · split <;> exact hid
  | _ => exact ⟨hid, hgone rfl⟩

end Inversion

end DurableQueue
