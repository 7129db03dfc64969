import DurableQueue.Worker.Transactional

/-!
# Rows that are not committed

What an INSERT does for which `nextval` has drawn an id some time before, and what calls do on a
table some of whose rows they do not see.
-/

open Reasoning

namespace DurableQueue

/-! ## An enqueue whose id has been drawn -/

namespace Jobs

/-- Append a row under an id that has been drawn before, and a key that no row has yet. -/
def appendAs (t : Jobs) (id : Nat) (task : String) (args : Json) (key : Option String) (now : Int)
    (hid : t.row id = none ∧ id < t.nextId) (hkey : key.bind t.rowWithKey = none) :
    Jobs where
  rows := t.rows ++ [Job.insert id task args key now]
  nextId := t.nextId
  idsNodup := by
    rw [List.map_append, List.nodup_append]
    refine ⟨t.idsNodup, List.nodup_singleton _, fun a ha b hb ↦ ?_⟩
    rw [List.map_singleton, List.mem_singleton] at hb
    rintro rfl
    rw [hb] at ha
    exact rowAt_none_iff.mp hid.1 ha
  idsLt := by
    intro r hr
    rcases List.mem_append.mp hr with hr | hr
    · exact t.idsLt r hr
    · rw [List.mem_singleton.mp hr]
      exact hid.2
  keysNodup := by
    rw [List.filterMap_append, List.nodup_append]
    refine ⟨t.keysNodup, ?_, fun a ha b hb ↦ ?_⟩
    · cases key with
      | none => exact List.nodup_nil
      | some k => exact List.nodup_singleton k
    · obtain ⟨r, hr, hra⟩ := List.mem_filterMap.mp ha
      obtain ⟨x, hx, hxb⟩ := List.mem_filterMap.mp hb
      rw [List.mem_singleton.mp hx] at hxb
      rintro rfl
      obtain rfl : key = some a := hxb
      exact rowWithKey_none_iff.mp hkey r hr hra

/-- One row of `ENQUEUE_SQL` for which `nextval` has drawn `id`. -/
def enqueueAs (t : Jobs) (id : Nat) (task : String) (args : Json) (key : Option String)
    (now : Int) : Option (Jobs × Nat) :=
  match key with
  | none =>
      if hid : t.row id = none ∧ id < t.nextId then
        some (t.appendAs id task args none now hid rfl, id)
      else none
  | some k =>
      match h : t.rowWithKey k with
      | some r => some (t.update (fun x ↦ x.idempotencyKey = some k) (.onConflict k), r.id)
      | none =>
          if hid : t.row id = none ∧ id < t.nextId then
            some (t.appendAs id task args (some k) now hid h, id)
          else none

variable {t : Jobs} {id : Nat} {task : String} {args : Json} {key : Option String} {now : Int}

@[simp] theorem row_appendAs {hid hkey} (id' : Nat) :
    (t.appendAs id task args key now hid hkey).row id' =
      if id = id' then some (Job.insert id task args key now) else t.row id' := by
  have hnew : (Job.insert id task args key now).id ∉ t.rows.map Job.id :=
    rowAt_none_iff.mp hid.1
  exact rowAt_append_single hnew id'

theorem update_onConflict (t : Jobs) (p : Job → Bool) (k : String) :
    t.update p (.onConflict k) = t := by
  refine ext ?_ rfl
  have hid (r : Job) : (if p r then SetClause.onConflict k r else r) = r := by
    rw [onConflict_apply, ite_self]
  change t.rows.map (fun r ↦ if p r then SetClause.onConflict k r else r) = t.rows
  rw [List.map_congr_left fun r _ ↦ hid r, List.map_id']

-- It is what `enqueue` does, which draws its id at once.
theorem enqueueAs_nextId (t : Jobs) (task : String) (args : Json) (key : Option String)
    (now : Int) :
    t.skipId.enqueueAs t.nextId task args key now = some (t.enqueue task args key now) := by
  have hfree : t.skipId.row t.nextId = none ∧ t.nextId < t.skipId.nextId :=
    ⟨t.row_nextId, Nat.lt_succ_self _⟩
  unfold enqueueAs enqueue
  cases key with
  | none =>
      simp only [dif_pos hfree]
      rfl
  | some k =>
      simp only [dif_pos hfree]
      have hsame : t.skipId.rowWithKey k = t.rowWithKey k := rfl
      split <;> split
      · rename_i r h h'
        cases h.symm.trans (hsame.trans h')
      · rename_i r h r' h'
        obtain rfl := Option.some.inj (h.symm.trans (hsame.trans h'))
        rfl
      · rfl
      · rename_i h r h'
        cases h.symm.trans (hsame.trans h')

theorem enqueueAs_conflict {k : String} {r : Job} (h : t.rowWithKey k = some r) :
    t.enqueueAs id task args (some k) now = some (t, r.id) := by
  unfold enqueueAs
  simp only
  split
  · rename_i r' h'
    rw [Option.some.inj (h'.symm.trans h), update_onConflict]
  · rename_i h'
    cases h.symm.trans h'

theorem enqueueAs_fresh (hkey : key.bind t.rowWithKey = none)
    (hid : t.row id = none ∧ id < t.nextId) :
    t.enqueueAs id task args key now = some (t.appendAs id task args key now hid hkey, id) := by
  unfold enqueueAs
  cases key with
  | none => exact dif_pos hid
  | some k =>
      have hnone : t.rowWithKey k = none := hkey
      simp only
      split
      · rename_i r h
        cases hnone.symm.trans h
      · exact dif_pos hid

end Jobs

/-! ## Calls that do not see some rows -/

section Hidden

variable {t : Jobs} {c : Call} {hidden : Nat → Bool}

/-- The table without the rows that are hidden. -/
def Jobs.without (t : Jobs) (hidden : Nat → Bool) : Jobs := t.delete fun r ↦ hidden r.id

namespace Jobs

theorem row_without (t : Jobs) (hidden : Nat → Bool) (id : Nat) :
    (t.without hidden).row id = if hidden id then none else t.row id := by
  rw [without, row_delete]
  cases hr : t.row id with
  | none =>
      rw [Option.filter_none]
      split <;> rfl
  | some r =>
      rw [Option.filter_some, row_id hr]
      cases hidden id <;> rfl

theorem without_none (t : Jobs) : t.without (fun _ ↦ false) = t :=
  ext (List.filter_eq_self.mpr fun _ _ ↦ rfl) rfl

-- What depends on the rows one by one may be done before or after some of them are hidden.
theorem update_without (p : Job → Bool) (s : SetClause) :
    (t.update p s).without hidden = (t.without hidden).update p s := by
  refine ext ?_ rfl
  change (t.rows.map _).filter _ = (t.rows.filter _).map _
  rw [List.filter_map]
  refine congrArg (List.map _) (List.filter_congr fun r _ ↦ ?_)
  dsimp only [Function.comp_apply]
  split
  · rw [s.keepsId]
  · rfl

theorem delete_without (p : Job → Bool) :
    (t.delete p).without hidden = (t.without hidden).delete p := by
  refine ext ?_ rfl
  change (t.rows.filter _).filter _ = (t.rows.filter _).filter _
  rw [List.filter_filter, List.filter_filter]
  exact List.filter_congr fun r _ ↦ Bool.and_comm _ _

theorem selectForUpdate_without {ctx : Ctx}
    (hlocked : ∀ id, hidden id = true → ctx.locked id = true) (cand : Job → Bool)
    (before : Job → Job → Prop) [DecidableRel before] (limit : Nat) :
    (t.without hidden).selectForUpdate ctx cand before limit =
      t.selectForUpdate ctx cand before limit := by
  unfold selectForUpdate selectRows
  congr 2
  change (t.rows.filter _).filter _ = _
  rw [List.filter_filter]
  refine List.filter_congr fun r _ ↦ ?_
  dsimp only
  cases hr : hidden r.id with
  | false => rw [Bool.not_false, Bool.and_true]
  | true =>
      rw [hlocked _ hr]
      simp

end Jobs

-- A call sees the rows that are not hidden: the hidden ones are locked, and nobody holds them.
theorem Call.run_without (hop : c.op.enqueues = false)
    (hlocked : ∀ id, hidden id = true → c.locked id = true)
    (hunheld : ∀ id r, hidden id = true → t.row id = some r → ∀ w, r.heldBy w = false) :
    (c.run t).without hidden = c.run (t.without hidden) := by
  obtain ⟨ctx, op⟩ := c
  cases op with
  | enqueue | enqueueMany => cases hop
  | claimJobs w lease batch =>
      have hsel := Jobs.selectForUpdate_without (t := t) hlocked (·.due ctx.now) Job.claimOrder
        batch
      simp only [Call.run, Jobs.claimJobs, Jobs.claimable, hsel]
      exact Jobs.update_without _ _
  | deadLetterExpired batch =>
      have hsel := Jobs.selectForUpdate_without (t := t) hlocked
        (fun r ↦ r.expired ctx.now && r.poisoned) (Job.scanOrder ctx.rank) batch
      simp only [Call.run, Jobs.deadLetterExpired, Jobs.poisonous, hsel]
      exact Jobs.update_without _ _
  | recoverExpired batch =>
      have hsel := Jobs.selectForUpdate_without (t := t) hlocked (·.expired ctx.now)
        (Job.scanOrder ctx.rank) batch
      simp only [Call.run, Jobs.recoverExpired, Jobs.recoverable, hsel]
      exact Jobs.update_without _ _
  | deleteCompletedJobs olderThan batch =>
      have hsel := Jobs.selectForUpdate_without (t := t) hlocked
        (·.finishedBefore (ctx.now - olderThan)) (Job.scanOrder id) batch
      simp only [Call.run, Jobs.deleteCompletedJobs, Jobs.completed, hsel]
      exact Jobs.delete_without _
  | extendLease | extendLeases | releaseJobs | markSucceeded | retryJob =>
      exact Jobs.update_without _ _
  | markFailed jobId w error permanent maxAttempts draw =>
      -- a hidden row is matched by the guard no more than one that is not there
      have hrow : ((t.without hidden).row jobId).filter (·.heldBy w) =
          (t.row jobId).filter (·.heldBy w) := by
        rw [Jobs.row_without]
        split
        · rename_i hhidden
          cases hr : t.row jobId with
          | none => rfl
          | some r =>
              rw [Option.filter_some, hunheld jobId r hhidden hr w, Option.filter_none]
              rfl
        · rfl
      simp only [Call.run, Jobs.markFailed, hrow]
      split
      · exact Jobs.update_without _ _
      · split
        · rfl
        · split
          · split
            · exact (Jobs.update_without _ _).trans (congrArg (Jobs.update · _ _)
                (Jobs.update_without _ _))
            · rfl
          · split
            · rfl
            · split
              · exact (Jobs.update_without _ _).trans (congrArg (Jobs.update · _ _)
                  (Jobs.update_without _ _))
              · rfl

end Hidden

-- Nobody writes a row that he does not see.
theorem RowChange.of_unseen {c : Call} {r : Job} {o : Option Job} (h : RowChange c (some r) o)
    (hs : r.status = .pending) (hw : r.lockedBy = none) (hlock : c.locked r.id = true) :
    o = some r := by
  have hfree : c.locked r.id ≠ false := by rw [hlock]; decide
  have hheld {w : WorkerId} (h : r.heldBy w) : False := by
    cases hw.symm.trans (Job.heldBy_iff.mp h).1
  cases h with
  | same => rfl
  | claimed _ _ h | recovered _ _ h | purged _ _ h => exact absurd h hfree
  | deadLettered _ _ _ h => exact absurd h hfree
  | extended _ h | released _ _ h | succeeded _ h | failed _ h => exact (hheld h).elim
  | retried _ h => cases hs.symm.trans h

end DurableQueue
