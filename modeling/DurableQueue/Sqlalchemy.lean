import DurableQueue.Reasoning.Savepoints
import Mathlib.Data.List.Infix

/-!
# Enqueueing through a SQLAlchemy session

`sqlalchemy.py`: the flag in `session.info` by which the event handlers know that a commit should
wake the idle worker.  SQLAlchemy calls the handlers at the end of the outermost transaction and of
every savepoint, so the flag is taken down by whichever comes first.
-/

open Reasoning

namespace DurableQueue

/-- The ids of the rows inserted and not committed, whether `_ENQUEUED` is in `session.info`, and
whether the handlers listen to the session's events. -/
structure Session where
  levels : Levels Nat
  enqueued : Bool
  listening : Bool

/-- The calls on a session; the rows are those that the statement inserts, none for a key that
matches a row. -/
inductive SessionOp where
  | enqueue (inserted : List Nat)
  | enqueueMany (argsList : List String) (inserted : List Nat)
  | beginNested
  | release
  | rollbackToSavepoint
  | commit
  | rollback

/-- What an outermost commit makes visible, and whether a handler calls `wakeup.wake()` at it. -/
structure SessionCommit where
  visible : List Nat
  woke : Bool

namespace Session

def start : Session := ⟨.empty, false, false⟩

/-- `_wake_after_commit`. -/
def wakeAfterCommit (s : Session) : Session := { s with enqueued := true, listening := true }

/-- `_after_commit`: `session.info.pop(_ENQUEUED, False)`, and whether it wakes. -/
def afterCommit (s : Session) : Session × Bool := ({ s with enqueued := false }, s.enqueued)

/-- `_after_rollback`. -/
def afterRollback (s : Session) : Session := { s with enqueued := false }

/-- The events as SQLAlchemy dispatches them. -/
def dispatchAfterCommit (s : Session) : Session × Bool :=
  if s.listening then s.afterCommit else (s, false)

def dispatchAfterRollback (s : Session) : Session := if s.listening then s.afterRollback else s

def enqueue (s : Session) (inserted : List Nat) : Session :=
  { s with levels := s.levels.write inserted }.wakeAfterCommit

def enqueueMany (s : Session) (argsList : List String) (inserted : List Nat) : Session :=
  if argsList = [] then s else { s with levels := s.levels.write inserted }.wakeAfterCommit

def beginNested (s : Session) : Session := { s with levels := s.levels.savepoint }

/-- `RELEASE SAVEPOINT`, then the event. -/
def release (s : Session) : Session := ({ s with levels := s.levels.release }.dispatchAfterCommit).1

def rollbackToSavepoint (s : Session) : Session :=
  { s with levels := s.levels.rollback }.dispatchAfterRollback

def releaseTimes : Nat → Session → Session
  | 0, s => s
  | n + 1, s => releaseTimes n s.release

/-- `session.commit()` releases the open savepoints before it commits the outermost transaction. -/
def commit (s : Session) : Session × SessionCommit :=
  let t := releaseTimes s.levels.depth s
  let (u, woke) := { t with levels := .empty }.dispatchAfterCommit
  (u, ⟨t.levels.outer, woke⟩)

def rollback (s : Session) : Session := { s with levels := .empty }.dispatchAfterRollback

/-- Only an open savepoint can be released or rolled back to. -/
def step (s : Session) : SessionOp → Option Session
  | .enqueue inserted => some (s.enqueue inserted)
  | .enqueueMany argsList inserted => some (s.enqueueMany argsList inserted)
  | .beginNested => some s.beginNested
  | .release => if s.levels.depth = 0 then none else some s.release
  | .rollbackToSavepoint => if s.levels.depth = 0 then none else some s.rollbackToSavepoint
  | .commit => some s.commit.1
  | .rollback => some s.rollback

def run (ops : List SessionOp) : Option Session := ops.foldlM step start

end Session

/-- Every outermost commit that makes a job visible wakes the worker. -/
def WakesOnCommit (ops : List SessionOp) : Prop :=
  ∀ before after s, ops = before ++ .commit :: after → Session.run before = some s →
    s.commit.2.visible ≠ [] → s.commit.2.woke = true

namespace SessionOp

/-- Calls that come to `_wake_after_commit`. -/
def enqueues : SessionOp → Bool
  | .enqueue _ => true
  | .enqueueMany argsList _ => decide (argsList ≠ [])
  | _ => false

/-- Calls at which a savepoint or the transaction ends. -/
def endsLevel : SessionOp → Bool
  | .release => true
  | .rollbackToSavepoint => true
  | .commit => true
  | .rollback => true
  | _ => false

end SessionOp

/-- The last call that enqueued, or ended a savepoint or a transaction, enqueued. -/
def EnqueuedLast (ops : List SessionOp) : Prop :=
  ∃ before op after, ops = before ++ op :: after ∧ op.enqueues = true ∧
    ∀ x ∈ after, x.endsLevel = false

/-- Where a commit would make a job visible, no savepoint is open, and none has ended since the
last call that enqueued. -/
def EnqueuesOutside (ops : List SessionOp) : Prop :=
  ∀ before after s, ops = before ++ .commit :: after → Session.run before = some s →
    s.levels.pending ≠ [] → s.levels.depth = 0 ∧ EnqueuedLast before

namespace Session

variable {s : Session}

/-! ## The flag -/

theorem enqueuedLast_concat {ops : List SessionOp} {op : SessionOp} :
    EnqueuedLast (ops ++ [op]) ↔
      op.enqueues = true ∨ op.endsLevel = false ∧ EnqueuedLast ops := by
  constructor
  · rintro ⟨before, x, after, heq, hx, hafter⟩
    rcases List.eq_nil_or_concat after with rfl | ⟨mid, y, rfl⟩
    · obtain ⟨-, hop⟩ := List.append_inj' heq rfl
      rw [List.cons.injEq] at hop
      exact Or.inl (hop.1 ▸ hx)
    · right
      rw [List.concat_eq_append] at heq hafter
      rw [← List.cons_append, ← List.append_assoc] at heq
      obtain ⟨hops, hop⟩ := List.append_inj' heq rfl
      rw [List.cons.injEq] at hop
      exact ⟨hop.1 ▸ hafter y (by simp), before, x, mid, hops, hx,
        fun z hz ↦ hafter z (List.mem_append_left _ hz)⟩
  · rintro (hop | ⟨hop, before, x, after, rfl, hx, hafter⟩)
    · exact ⟨ops, op, [], rfl, hop, fun z hz ↦ absurd hz List.not_mem_nil⟩
    · refine ⟨before, x, after ++ [op], by simp, hx, fun z hz ↦ ?_⟩
      rcases List.mem_append.mp hz with hz | hz
      · exact hafter z hz
      · rw [List.mem_singleton.mp hz]
        exact hop

/-- The flag is up only while the handlers listen. -/
def Heard (s : Session) : Prop := s.enqueued = true → s.listening = true

theorem dispatchAfterCommit_eq (h : s.Heard) :
    s.dispatchAfterCommit = ({ s with enqueued := false }, s.enqueued) := by
  obtain ⟨levels, enqueued, listening⟩ := s
  cases listening with
  | true => rfl
  | false =>
      cases enqueued with
      | true => exact absurd (h rfl) Bool.false_ne_true
      | false => rfl

theorem dispatchAfterRollback_eq (h : s.Heard) :
    s.dispatchAfterRollback = { s with enqueued := false } := by
  have hfst : s.dispatchAfterRollback = s.dispatchAfterCommit.1 := by
    unfold dispatchAfterRollback dispatchAfterCommit
    split <;> rfl
  rw [hfst, dispatchAfterCommit_eq h]

theorem release_eq (h : s.Heard) :
    s.release = { s with levels := s.levels.release, enqueued := false } := by
  unfold release
  rw [dispatchAfterCommit_eq (s := { s with levels := s.levels.release }) h]

-- Releasing what is open hands everything to the outermost transaction, and takes the flag down.
theorem releaseTimes_eq (h : s.Heard) :
    (releaseTimes s.levels.depth s).levels.outer = s.levels.pending ∧
      (releaseTimes s.levels.depth s).Heard ∧
      ((releaseTimes s.levels.depth s).enqueued = true ↔
        s.levels.depth = 0 ∧ s.enqueued = true) := by
  generalize hn : s.levels.depth = n
  induction n generalizing s with
  | zero => exact ⟨Levels.pending_of_depth_zero hn, h, by simp [releaseTimes]⟩
  | succ n ih =>
      have hrelease := release_eq h
      have hheard : s.release.Heard := by
        rw [hrelease]
        intro he
        cases he
      have hdepth : s.release.levels.depth = n := by
        rw [hrelease]
        simp only [Levels.depth_release]
        omega
      obtain ⟨houter, hheard', hflag⟩ := ih hheard hdepth
      refine ⟨?_, hheard', ?_⟩
      · rw [releaseTimes, houter, hrelease]
        exact Levels.pending_release s.levels
      · rw [releaseTimes, hflag, hrelease]
        simp

/-- What a commit comes to. -/
theorem commit_eq (h : s.Heard) :
    s.commit.2.visible = s.levels.pending ∧
      (s.commit.2.woke = true ↔ s.levels.depth = 0 ∧ s.enqueued = true) ∧
      s.commit.1.Heard ∧ s.commit.1.enqueued = false := by
  obtain ⟨houter, hheard, hflag⟩ := releaseTimes_eq h
  have hdispatch := dispatchAfterCommit_eq
    (s := { releaseTimes s.levels.depth s with levels := .empty }) hheard
  unfold commit
  simp only [hdispatch]
  refine ⟨houter, hflag, ?_, trivial⟩
  intro he
  cases he

/-- The flag tells whether the last call that counts enqueued. -/
theorem run_flag {ops : List SessionOp} (h : run ops = some s) :
    s.Heard ∧ (s.enqueued = true ↔ EnqueuedLast ops) := by
  -- by induction on the run from its end, where the state is
  induction ops using List.reverseRecOn generalizing s with
  | nil =>
      cases h
      refine ⟨fun he ↦ (by cases he), fun he ↦ (by cases he), ?_⟩
      rintro ⟨before, op, after, heq, -⟩
      exact absurd heq (by simp)
  | append_singleton ops op ih =>
      obtain ⟨t, ht, hstep⟩ : ∃ t, run ops = some t ∧ t.step op = some s := by
        unfold run at h ⊢
        rw [List.foldlM_append] at h
        obtain ⟨t, ht, h⟩ := Option.bind_eq_some_iff.mp h
        refine ⟨t, ht, ?_⟩
        simpa only [List.foldlM_cons, List.foldlM_nil, bind_pure] using h
      obtain ⟨hheard, hflag⟩ := ih ht
      rw [enqueuedLast_concat, ← hflag]
      have hset (u : Session) : u.wakeAfterCommit.Heard := fun _ ↦ rfl
      cases op with
      | enqueue inserted =>
          cases hstep
          exact ⟨hset _, by simp [enqueue, wakeAfterCommit, SessionOp.enqueues]⟩
      | enqueueMany argsList inserted =>
          cases hstep
          unfold enqueueMany
          by_cases hnil : argsList = []
          · rw [if_pos hnil]
            exact ⟨hheard, by simp [hnil, SessionOp.enqueues, SessionOp.endsLevel]⟩
          · rw [if_neg hnil]
            exact ⟨hset _, by simp [hnil, wakeAfterCommit, SessionOp.enqueues]⟩
      | beginNested =>
          cases hstep
          exact ⟨hheard, by simp [beginNested, SessionOp.enqueues, SessionOp.endsLevel]⟩
      | release =>
          have hs : s = t.release := by
            simp only [step] at hstep
            split at hstep
            · cases hstep
            · exact (Option.some.inj hstep).symm
          rw [hs, release_eq hheard]
          exact ⟨fun he ↦ (by cases he), by simp [SessionOp.enqueues, SessionOp.endsLevel]⟩
      | rollbackToSavepoint =>
          have hs : s = t.rollbackToSavepoint := by
            simp only [step] at hstep
            split at hstep
            · cases hstep
            · exact (Option.some.inj hstep).symm
          rw [hs, rollbackToSavepoint,
            dispatchAfterRollback_eq (s := { t with levels := t.levels.rollback }) hheard]
          exact ⟨fun he ↦ (by cases he), by simp [SessionOp.enqueues, SessionOp.endsLevel]⟩
      | commit =>
          cases hstep
          obtain ⟨-, -, hheard', hdown⟩ := commit_eq hheard
          exact ⟨hheard', by simp [hdown, SessionOp.enqueues, SessionOp.endsLevel]⟩
      | rollback =>
          cases hstep
          rw [rollback, dispatchAfterRollback_eq (s := { t with levels := .empty }) hheard]
          exact ⟨fun he ↦ (by cases he), by simp [SessionOp.enqueues, SessionOp.endsLevel]⟩

/-- Every commit that makes a job visible wakes the worker exactly if each of them comes after a
call that enqueued, with no savepoint open, and none released or rolled back in between. -/
theorem wakes_on_commit_iff (ops : List SessionOp) : WakesOnCommit ops ↔ EnqueuesOutside ops := by
  unfold WakesOnCommit EnqueuesOutside
  refine forall₅_congr fun before after s hops hrun ↦ ?_
  obtain ⟨hheard, hflag⟩ := run_flag hrun
  obtain ⟨hvisible, hwoke, -⟩ := commit_eq hheard
  rw [hvisible, hwoke, hflag]

/-- A job enqueued inside a savepoint: the release wakes the worker, when there is nothing to see
yet, and the commit does not. -/
theorem sleeps_through_commit : ¬ ∀ ops, WakesOnCommit ops := by
  intro h
  have hwoke := h [.beginNested, .enqueue [1], .release, .commit]
    [.beginNested, .enqueue [1], .release] [] _ rfl rfl (by decide)
  exact absurd hwoke (by decide)

end Session

end DurableQueue
