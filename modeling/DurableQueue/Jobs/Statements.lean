import DurableQueue.Jobs.Table
import Mathlib.Algebra.Group.Int.Defs

/-!
# The statements of `jobs.py`

Every function of `jobs.py` that writes, as a function from the table to the table and its result.
A statement runs at its transaction's `now()` and finds some rows locked by other transactions.
`none` is an exception, which rolls the statement's transaction back.
-/

open Reasoning

namespace DurableQueue

/-- What a statement meets: the clock, the rows other transactions hold locked, and the order in
which a scan without `ORDER BY` comes across the rows. -/
structure Ctx where
  now : Int
  locked : Nat → Bool
  rank : Nat → Nat

/-- No other transaction is open. -/
def Ctx.alone (now : Int) : Ctx := ⟨now, fun _ ↦ false, id⟩

def repeatedlyDied : PyStr :=
  "worker repeatedly died while running this job".toList.map Char.toNat

/-! ## The `SET` clauses -/

namespace SetClause

def claim (workerId : WorkerId) (lockedUntil : Int) : SetClause where
  set r :=
    { r with status := .running, lockedBy := some workerId, lockedUntil := some lockedUntil }
  keepsId _ := rfl
  keepsKey _ := rfl

def extend (lockedUntil : Int) : SetClause where
  set r := { r with lockedUntil := some lockedUntil }
  keepsId _ := rfl
  keepsKey _ := rfl

-- no range check here and in `recover`: see `Job.Bounded.fitsInt_recoveries`
def deadLetter (now : Int) : SetClause where
  set r :=
    { r with status := .dead, finishedAt := some now, recoveries := r.recoveries + 1
             lockedBy := none, lockedUntil := none, lastError := some repeatedlyDied }
  keepsId _ := rfl
  keepsKey _ := rfl

def recover : SetClause where
  set r :=
    { r with status := .pending, recoveries := r.recoveries + 1
             lockedBy := none, lockedUntil := none }
  keepsId _ := rfl
  keepsKey _ := rfl

def release : SetClause where
  set r := { r with status := .pending, lockedBy := none, lockedUntil := none }
  keepsId _ := rfl
  keepsKey _ := rfl

def succeed (now : Int) : SetClause where
  set r := { r with status := .succeeded, finishedAt := some now }
  keepsId _ := rfl
  keepsKey _ := rfl

-- `mark_failed`'s first UPDATE, then the two that may follow it
def countFailure (maxAttempts : Option Int) : SetClause where
  set r := { r with attempts := r.attempts + 1, maxAttempts := maxAttempts.getD r.maxAttempts }
  keepsId _ := rfl
  keepsKey _ := rfl

def bury (now : Int) (error : PyStr) : SetClause where
  set r :=
    { r with status := .dead, finishedAt := some now, lastError := some error
             lockedBy := none, lockedUntil := none }
  keepsId _ := rfl
  keepsKey _ := rfl

def reschedule (runAt : Int) (error : PyStr) : SetClause where
  set r :=
    { r with status := .pending, runAt := runAt, lastError := some error
             lockedBy := none, lockedUntil := none }
  keepsId _ := rfl
  keepsKey _ := rfl

def retry (now : Int) : SetClause where
  set r :=
    { r with status := .pending, attempts := 0, recoveries := 0, runAt := now, finishedAt := none }
  keepsId _ := rfl
  keepsKey _ := rfl

-- `ON CONFLICT (idempotency_key) DO UPDATE SET idempotency_key = EXCLUDED.idempotency_key`
def onConflict (key : String) : SetClause where
  set r := if r.idempotencyKey = some key then { r with idempotencyKey := some key } else r
  keepsId r := by split <;> rfl
  keepsKey r := by split <;> simp only [*]

end SetClause

namespace Job

/-! ## The `WHERE` clauses -/

def due (r : Job) (now : Int) : Bool :=
  r.status = .pending && decide (r.runAt ≤ now)

/-- `locked_by = %s AND status = 'running'`, the guard of every write to a lease. -/
def heldBy (r : Job) (workerId : WorkerId) : Bool :=
  r.lockedBy = some workerId && r.status = .running

/-- `status = 'running' AND locked_until < now()`; a NULL compares to nothing. -/
def expired (r : Job) (now : Int) : Bool :=
  r.status = .running && r.lockedUntil.any (decide <| · < now)

def poisoned (r : Job) : Bool :=
  decide (r.maxRecoveries ≤ r.recoveries + 1)

def finishedBefore (r : Job) (t : Int) : Bool :=
  (r.status = .succeeded || r.status = .dead) && r.finishedAt.any (decide <| · < t)

/-! ## The orders -/

/-- `ORDER BY run_at, id`. -/
def claimOrder (a b : Job) : Prop :=
  a.runAt < b.runAt ∨ a.runAt = b.runAt ∧ a.id ≤ b.id

instance : DecidableRel claimOrder := fun _ _ ↦ inferInstanceAs (Decidable (_ ∨ _))

instance : Std.Total claimOrder := ⟨fun a b ↦ by unfold claimOrder; omega⟩

instance : IsTrans Job claimOrder := ⟨fun a b c ↦ by unfold claimOrder; omega⟩

/-- The order a scan happens to have. -/
def scanOrder (rank : Nat → Nat) (a b : Job) : Prop :=
  rank a.id < rank b.id ∨ rank a.id = rank b.id ∧ a.id ≤ b.id

instance (rank : Nat → Nat) : DecidableRel (scanOrder rank) :=
  fun _ _ ↦ inferInstanceAs (Decidable (_ ∨ _))

instance (rank : Nat → Nat) : Std.Total (scanOrder rank) :=
  ⟨fun a b ↦ by unfold scanOrder; omega⟩

instance (rank : Nat → Nat) : IsTrans Job (scanOrder rank) :=
  ⟨fun a b c ↦ by unfold scanOrder; omega⟩

end Job

namespace Jobs

/-! ## Enqueueing -/

/-- `ENQUEUE_SQL`: the table and the id of the new row, or of the row that has the key. -/
def enqueue (t : Jobs) (task : String) (args : Json) (key : Option String) (now : Int) :
    Jobs × Nat :=
  match key with
  | none => (t.append task args none now (by simp), t.nextId)
  | some k =>
      match h : t.rowWithKey k with
      | none => (t.append task args (some k) now (by simp [h]), t.nextId)
      | some r =>
          ((t.update (fun x ↦ x.idempotencyKey = some k) (.onConflict k)).skipId, r.id)

/-- The rows of `ENQUEUE_MANY_SQL` in turn.  `touched` are the ids the statement has inserted or
updated so far: Postgres refuses to affect one of them a second time. -/
def enqueueRows (task : String) (now : Int) :
    Jobs → List Nat → List (Json × Option String) → Option (Jobs × List Nat)
  | t, _, [] => some (t, [])
  | t, touched, (args, key) :: rest =>
      if (key.bind t.rowWithKey).any (decide <| ·.id ∈ touched) then none
      else
        let (u, id) := t.enqueue task args key now
        (enqueueRows task now u (id :: touched) rest).map fun (v, ids) ↦ (v, id :: ids)

/-- `enqueue_many`.  `unnest` pads the shorter array with NULL, which `args` does not take. -/
def enqueueMany (t : Jobs) (task : String) (argsList : List Json)
    (idempotencyKeys : Option (List (Option String))) (now : Int) : Option (Jobs × List Nat) :=
  if argsList = [] then some (t, [])
  else
    let keys := idempotencyKeys.getD (List.replicate argsList.length none)
    if argsList.length < keys.length then none
    else
      let padded := keys ++ List.replicate (argsList.length - keys.length) none
      enqueueRows task now t [] (argsList.zip padded)

/-- How many ids the rows of the statement draw, up to the one at which it fails: one that it may
not affect again, or the first without `args`. -/
def drawnRows (task : String) (now : Int) : Jobs → List Nat → List (Json × Option String) → Nat
  | _, _, [] => 1
  | t, touched, (args, key) :: rest =>
      if (key.bind t.rowWithKey).any (decide <| ·.id ∈ touched) then 1
      else
        let (u, id) := t.enqueue task args key now
        drawnRows task now u (id :: touched) rest + 1

/-- The ids that are lost with an `enqueue_many` that fails. -/
def enqueueManyDrawn (t : Jobs) (task : String) (argsList : List Json)
    (idempotencyKeys : Option (List (Option String))) (now : Int) : Nat :=
  let keys := idempotencyKeys.getD (List.replicate argsList.length none)
  let padded := keys ++ List.replicate (argsList.length - keys.length) none
  drawnRows task now t [] (argsList.zip padded)

/-! ## Claims and leases -/

/-- `SELECT id ... ORDER BY before FOR UPDATE SKIP LOCKED LIMIT limit`. -/
def selectForUpdate (t : Jobs) (ctx : Ctx) (cand : Job → Bool) (before : Job → Job → Prop)
    [DecidableRel before] (limit : Nat) : List Job :=
  selectRows (fun r ↦ cand r && !ctx.locked r.id) before limit t.rows

/-- `UPDATE jobs SET s WHERE id IN sel`. -/
def updateIn (t : Jobs) (sel : List Job) (s : SetClause) : Jobs :=
  t.update (fun r ↦ decide (r.id ∈ sel.map Job.id)) s

/-- The rows a claim picks. -/
def claimable (t : Jobs) (ctx : Ctx) (batchSize : Nat) : List Job :=
  t.selectForUpdate ctx (·.due ctx.now) Job.claimOrder batchSize

/-- `claim_jobs`: the table, and `RETURNING id, task, args`, which has no order of its own. -/
def claimJobs (t : Jobs) (ctx : Ctx) (workerId : WorkerId) (leaseSeconds : Int) (batchSize : Nat) :
    Jobs × List (Nat × String × Json) :=
  let sel := t.claimable ctx batchSize
  (t.updateIn sel (.claim workerId (ctx.now + seconds leaseSeconds)),
    (sel.insertionSort (Job.scanOrder ctx.rank)).map fun r ↦ (r.id, r.task, r.args))

def claimNextJob (t : Jobs) (ctx : Ctx) (workerId : WorkerId) (leaseSeconds : Int) :
    Jobs × Option (Nat × String × Json) :=
  let (u, claimed) := t.claimJobs ctx workerId leaseSeconds 1
  (u, claimed.head?)

/-- `UPDATE jobs SET s WHERE id = ANY(ids) AND locked_by = workerId AND status = 'running'`. -/
def updateHeld (t : Jobs) (ids : List Nat) (workerId : WorkerId) (s : SetClause) : Jobs :=
  t.update (fun r ↦ decide (r.id ∈ ids) && r.heldBy workerId) s

/-- How many of `ids` the worker holds. -/
def heldCount (t : Jobs) (ids : List Nat) (workerId : WorkerId) : Nat :=
  (t.rows.filter fun r ↦ decide (r.id ∈ ids) && r.heldBy workerId).length

def extendLeases (t : Jobs) (ctx : Ctx) (jobIds : List Nat) (workerId : WorkerId)
    (leaseSeconds : Int) : Jobs :=
  t.updateHeld jobIds workerId (.extend (ctx.now + seconds leaseSeconds))

def extendLease (t : Jobs) (ctx : Ctx) (jobId : Nat) (workerId : WorkerId) (leaseSeconds : Int) :
    Jobs :=
  t.extendLeases ctx [jobId] workerId leaseSeconds

/-- What `reap_expired_jobs`'s first UPDATE picks. -/
def poisonous (t : Jobs) (ctx : Ctx) (reapBatch : Nat) : List Job :=
  t.selectForUpdate ctx (fun r ↦ r.expired ctx.now && r.poisoned) (Job.scanOrder ctx.rank) reapBatch

def deadLetterExpired (t : Jobs) (ctx : Ctx) (reapBatch : Nat) : Jobs × Nat :=
  let sel := t.poisonous ctx reapBatch
  (t.updateIn sel (.deadLetter ctx.now), sel.length)

/-- What its second UPDATE picks: any expired lease, poisonous or not. -/
def recoverable (t : Jobs) (ctx : Ctx) (reapBatch : Nat) : List Job :=
  t.selectForUpdate ctx (·.expired ctx.now) (Job.scanOrder ctx.rank) reapBatch

def recoverExpired (t : Jobs) (ctx : Ctx) (reapBatch : Nat) : Jobs × Nat :=
  let sel := t.recoverable ctx reapBatch
  (t.updateIn sel .recover, sel.length)

/-- `reap_expired_jobs`.  On an autocommit connection the two UPDATEs are two transactions, each
with its own clock reading and its own locked rows. -/
def reapExpiredJobs (t : Jobs) (first second : Ctx) (reapBatch : Nat) : Jobs × Nat :=
  let (u, deadLettered) := t.deadLetterExpired first reapBatch
  let (v, recovered) := u.recoverExpired second reapBatch
  (v, deadLettered + recovered)

def releaseJobs (t : Jobs) (jobIds : List Nat) (workerId : WorkerId) : Jobs × Nat :=
  (t.updateHeld jobIds workerId .release,
    t.heldCount jobIds workerId)

/-- `least(min(run_at) of the pending, min(locked_until) of the running) - now()`. -/
def secondsUntilDue (t : Jobs) (now : Int) : Option Int :=
  let pending := (t.rows.filter fun r ↦ r.status = .pending).map Job.runAt
  let running := (t.rows.filter fun r ↦ r.status = .running).filterMap Job.lockedUntil
  (pending ++ running).min?.map (· - now)

/-! ## Outcomes -/

/-- `mark_succeeded`, and `mark_succeeded_in_transaction` once its transaction commits. -/
def markSucceeded (t : Jobs) (ctx : Ctx) (jobId : Nat) (workerId : WorkerId) : Jobs × Bool :=
  (t.updateHeld [jobId] workerId (.succeed ctx.now),
    (t.row jobId).any (·.heldBy workerId))

/-- `compute_backoff` in microseconds.  `draw` is what the random source offers, `uniform` keeps it
within its bounds.  `base_seconds * (2 ** attempts)` turns the integer into a float, which fails
from `2 ** 1024` on. -/
def computeBackoff (attempts : Nat) (draw : Int) : Option Int :=
  if 1024 ≤ attempts then none
  else some (max 0 (min draw (min (seconds 300) (seconds (2 ^ attempts)))))

/-- Whether psycopg can send a string as a `text` parameter: no U+0000, no surrogate. -/
def recordable (error : PyStr) : Bool :=
  error.all fun c ↦ decide (c ≠ 0) && !(decide (0xD800 ≤ c) && decide (c ≤ 0xDFFF))

/-- `UPDATE jobs SET s WHERE id = jobId`. -/
def updateId (t : Jobs) (jobId : Nat) (s : SetClause) : Jobs :=
  t.update (fun r ↦ decide (r.id = jobId)) s

/-- `mark_failed`.  Its two UPDATEs share a transaction, so an error raised by or after the first
one (by the backoff, or by an error text that cannot be sent) undoes that too. -/
def markFailed (t : Jobs) (ctx : Ctx) (jobId : Nat) (workerId : WorkerId) (error : PyStr)
    (permanent : Bool) (maxAttempts : Option Int) (draw : Int) : Option (Jobs × Bool) :=
  let u := t.updateHeld [jobId] workerId (.countFailure maxAttempts)
  -- RETURNING attempts, max_attempts
  match ((t.row jobId).filter (·.heldBy workerId)).map (SetClause.countFailure maxAttempts) with
  -- planning the statement may find a limit out of range here too, and leaves the table as it is
  | none => some (u, false)
  | some row =>
      -- `integer out of range`
      if !(fitsInt row.attempts && maxAttempts.all fitsInt) then none
      else if permanent || decide (row.maxAttempts ≤ row.attempts) then
        if recordable error then
          some (u.updateId jobId (.bury ctx.now error), true)
        else none
      else
        match computeBackoff row.attempts draw with
        | none => none
        | some delay =>
            if recordable error then
              some (u.updateId jobId (.reschedule (ctx.now + delay) error), true)
            else none

/-! ## Retention and operators -/

def completed (t : Jobs) (ctx : Ctx) (olderThan : Int) (batch : Nat) : List Job :=
  t.selectForUpdate ctx (·.finishedBefore (ctx.now - olderThan)) (Job.scanOrder id) batch

/-- `delete_completed_jobs`; `olderThan` is in microseconds. -/
def deleteCompletedJobs (t : Jobs) (ctx : Ctx) (olderThan : Int) (batch : Nat) : Jobs × Nat :=
  let sel := t.completed ctx olderThan batch
  (t.delete fun r ↦ decide (r.id ∈ sel.map Job.id), sel.length)

def retryJob (t : Jobs) (ctx : Ctx) (jobId : Nat) : Jobs × Bool :=
  (t.update (fun r ↦ decide (r.id = jobId) && decide (r.status = .dead)) (.retry ctx.now),
    (t.row jobId).any fun r ↦ decide (r.status = .dead))

end Jobs

end DurableQueue
