import DurableQueue.Reasoning.Rows
import Mathlib.Algebra.BigOperators.Group.List.Basic
import Mathlib.Algebra.Ring.Nat

/-!
# Selecting in batches

A statement that picks the first rows of an order and takes them out of it, by an update after which
they are no candidates or by a deletion.  Two batches in turn are one batch of the sum, and a batch
that comes back short has taken all there was.
-/

namespace Reasoning

/-! ## Operations that add up -/

section InTurn

variable {ι σ α β : Type*}

end InTurn

variable {ρ κ : Type*}

/-! ## Sorting what is left -/

section Order

variable {before : ρ → ρ → Prop} [DecidableRel before] [IsTrans ρ before]

-- Insertion keeps ties where they are, and so does leaving rows out.
theorem filter_orderedInsert {p : ρ → Bool} {l : List ρ} (hl : l.Pairwise before) (a : ρ) :
    (l.orderedInsert before a).filter p =
      if p a then (l.filter p).orderedInsert before a else l.filter p := by
  induction l with
  | nil =>
      rw [List.orderedInsert_nil, List.filter_cons]
      rfl
  | cons x xs ih =>
      obtain ⟨hx, hxs⟩ := List.pairwise_cons.mp hl
      rw [List.orderedInsert_cons]
      by_cases hax : before a x
      · rw [if_pos hax, List.filter_cons]
        cases hp : p a with
        | false => rfl
        | true =>
            -- whatever is left comes after `a` as well
            rw [if_pos rfl, if_pos rfl]
            cases hf : (x :: xs).filter p with
            | nil => rfl
            | cons y ys =>
                have hy : y ∈ x :: xs := List.mem_of_mem_filter (hf ▸ List.mem_cons_self)
                have hay : before a y := by
                  rcases List.mem_cons.mp hy with rfl | hy
                  · exact hax
                  · exact IsTrans.trans _ _ _ hax (hx y hy)
                rw [List.orderedInsert_cons, if_pos hay]
      · rw [if_neg hax, List.filter_cons, ih hxs, List.filter_cons]
        cases p x with
        | false => rfl
        | true =>
            cases p a with
            | false => rfl
            | true => exact (List.orderedInsert_of_not_le before _ hax).symm

theorem filter_insertionSort [Std.Total before] (p : ρ → Bool) (l : List ρ) :
    (l.insertionSort before).filter p = (l.filter p).insertionSort before := by
  induction l with
  | nil => rfl
  | cons x xs ih =>
      rw [List.insertionSort_cons, filter_orderedInsert (List.pairwise_insertionSort before xs), ih,
        List.filter_cons]
      split <;> rfl

end Order

/-! ## One batch after the other -/

theorem nodup_insertionSort_filter {key : ρ → κ} {l : List ρ} (hl : (l.map key).Nodup)
    (cand : ρ → Bool) (before : ρ → ρ → Prop) [DecidableRel before] :
    (((l.filter cand).insertionSort before).map key).Nodup :=
  ((List.perm_insertionSort before _).map key).nodup_iff.mpr
    (hl.sublist (List.filter_sublist.map key))

theorem nodup_selectRows {key : ρ → κ} {l : List ρ} (hl : (l.map key).Nodup) (cand : ρ → Bool)
    (before : ρ → ρ → Prop) [DecidableRel before] (n : Nat) :
    ((selectRows cand before n l).map key).Nodup :=
  (nodup_insertionSort_filter hl cand before).sublist ((List.take_sublist n _).map key)

variable [DecidableEq κ]

section Batch

variable {key : ρ → κ} {cand : ρ → Bool} {before : ρ → ρ → Prop} [DecidableRel before]
  {f : ρ → ρ} {l : List ρ} {m n : Nat}

variable [Std.Total before] [IsTrans ρ before]

end Batch

end Reasoning
