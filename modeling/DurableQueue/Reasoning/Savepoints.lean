import Mathlib.Data.List.Basic

/-!
# Savepoints

What a transaction with nested savepoints has written and not committed: one list for each open
level.  Releasing a savepoint hands its writes to the level around it, rolling back to it drops
them.
-/

namespace Reasoning

/-- The writes of the outermost transaction, and of its open savepoints, the innermost first. -/
structure Levels (α : Type*) where
  outer : List α
  savepoints : List (List α)

namespace Levels

variable {α : Type*}

def empty : Levels α := ⟨[], []⟩

/-- How many savepoints are open. -/
def depth (l : Levels α) : Nat := l.savepoints.length

/-- All that a commit would make visible. -/
def pending (l : Levels α) : List α := l.outer ++ l.savepoints.reverse.flatten

def write (l : Levels α) (xs : List α) : Levels α :=
  match l.savepoints with
  | [] => { l with outer := l.outer ++ xs }
  | s :: rest => { l with savepoints := (s ++ xs) :: rest }

def savepoint (l : Levels α) : Levels α := { l with savepoints := [] :: l.savepoints }

def rollback (l : Levels α) : Levels α := { l with savepoints := l.savepoints.tail }

/-- Without a savepoint there is nothing to release. -/
def release (l : Levels α) : Levels α :=
  match l.savepoints with
  | [] => l
  | s :: rest => ({ l with savepoints := rest } : Levels α).write s

theorem pending_write (l : Levels α) (xs : List α) : (l.write xs).pending = l.pending ++ xs := by
  unfold write pending
  cases hl : l.savepoints with
  | nil => simp only [List.reverse_nil, List.flatten_nil, List.append_nil]
  | cons s rest =>
      simp only [List.reverse_cons, List.flatten_append, List.flatten_singleton,
        List.append_assoc]

theorem depth_write (l : Levels α) (xs : List α) : (l.write xs).depth = l.depth := by
  unfold write depth
  cases hl : l.savepoints with
  | nil => rfl
  | cons s rest => rfl

theorem pending_release (l : Levels α) : l.release.pending = l.pending := by
  unfold release
  cases hl : l.savepoints with
  | nil => rfl
  | cons s rest =>
      simp only [pending_write]
      simp only [pending, hl, List.reverse_cons, List.flatten_append, List.flatten_singleton,
        List.append_assoc]

theorem depth_release (l : Levels α) : l.release.depth = l.depth - 1 := by
  unfold release
  cases hl : l.savepoints with
  | nil => rw [depth, hl, List.length_nil]
  | cons s rest =>
      simp only [depth_write]
      rw [depth, depth, hl, List.length_cons, Nat.add_sub_cancel]

theorem pending_of_depth_zero {l : Levels α} (h : l.depth = 0) : l.outer = l.pending := by
  rw [pending, List.length_eq_zero_iff.mp h, List.reverse_nil, List.flatten_nil, List.append_nil]

end Levels

end Reasoning
