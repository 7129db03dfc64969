import DurableQueue.Reasoning.Rows
import DurableQueue.Reasoning.Runs
import Mathlib.Algebra.BigOperators.Group.Finset.Basic
import Mathlib.Algebra.BigOperators.Group.Finset.Piecewise
import Mathlib.Algebra.Order.BigOperators.Group.Finset
import Mathlib.Algebra.Ring.Nat
import Mathlib.Data.Finset.Card

/-!
# Potentials

What a run gains, where each step pays for its gain out of a potential or by its cost; and the
potential of a table that is numbered from zero, which adds up that of its rows.
-/

open Finset

namespace Reasoning

namespace System

variable {σ ι ε : Type*} {M : System σ ι} {obs : σ → ι → σ → List ε} {Inv : σ → Prop}
  {potential : σ → Nat} {gain cost : ε → Nat}

end System

section Tables

variable {ρ : Type*} (value : Option ρ → Nat) (look look' : Nat → Option ρ) (n : Nat)

/-- The potential of the rows numbered below `n`. -/
def worth : Nat := ∑ k ∈ range n, value (look k)

variable {value look look' n}

-- If each row pays for itself, so does the table.
theorem worth_add_le {gain cost : Nat → Nat}
    (h : ∀ k < n, value (look' k) + gain k ≤ value (look k) + cost k) :
    worth value look' n + ∑ k ∈ range n, gain k ≤ worth value look n + ∑ k ∈ range n, cost k := by
  unfold worth
  rw [← sum_add_distrib, ← sum_add_distrib]
  exact sum_le_sum fun k hk ↦ h k (mem_range.mp hk)

/-- As many as there are rows that meet `p`, at most. -/
theorem sum_rowAt_le {key : ρ → Nat} {l : List ρ} (p : ρ → Bool) (n : Nat) :
    ∑ k ∈ range n, (if (rowAt key l k).any p then 1 else 0) ≤ (l.filter p).length := by
  classical
  rw [← card_filter]
  calc ((range n).filter fun k ↦ (rowAt key l k).any p).card
      ≤ ((l.filter p).map key).toFinset.card := by
        refine card_le_card fun k hk ↦ ?_
        obtain ⟨r, hr, hp⟩ := (Option.any_eq_true p _).mp (mem_filter.mp hk).2
        obtain ⟨hmem, rfl⟩ := rowAt_some hr
        exact List.mem_toFinset.mpr (List.mem_map_of_mem (List.mem_filter.mpr ⟨hmem, hp⟩))
    _ ≤ ((l.filter p).map key).length := List.toFinset_card_le _
    _ = (l.filter p).length := List.length_map _

/-- A list of different numbers below `n` at each of which there is something to gain. -/
theorem length_le_sum {keys : List Nat} {gain : Nat → Nat} (hnodup : keys.Nodup)
    (h : ∀ k ∈ keys, k < n ∧ 0 < gain k) : keys.length ≤ ∑ k ∈ range n, gain k := by
  classical
  calc keys.length = keys.toFinset.card := (List.toFinset_card_of_nodup hnodup).symm
    _ = ∑ k ∈ keys.toFinset, 1 := (card_eq_sum_ones _)
    _ ≤ ∑ k ∈ keys.toFinset, gain k :=
        sum_le_sum fun k hk ↦ (h k (List.mem_toFinset.mp hk)).2
    _ ≤ ∑ k ∈ range n, gain k := by
        refine sum_le_sum_of_subset fun k hk ↦ ?_
        exact mem_range.mpr (h k (List.mem_toFinset.mp hk)).1

end Tables

end Reasoning
