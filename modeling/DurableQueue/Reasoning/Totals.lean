import Mathlib.Algebra.Order.BigOperators.Group.List
import Mathlib.Data.Int.Cast.Lemmas

/-!
# Totals

What the entries of a list add up to, and how the total changes when one entry does.  Counters that
several threads share are such totals over the threads.
-/

namespace Reasoning

variable {α : Type*} {f : α → Int} {l : List α} {i : Nat} {a b : α}

def total (f : α → Int) (l : List α) : Int := (l.map f).sum

@[simp] theorem total_nil : total f [] = 0 := rfl

@[simp] theorem total_cons : total f (a :: l) = f a + total f l := by
  unfold total
  rw [List.map_cons, List.sum_cons]

@[simp] theorem total_append (l m : List α) : total f (l ++ m) = total f l + total f m := by
  unfold total
  rw [List.map_append, List.sum_append]

theorem total_replicate (n : Nat) : total f (List.replicate n a) = n * f a := by
  unfold total
  rw [List.map_replicate, List.sum_replicate]
  exact nsmul_eq_mul _ _

theorem total_set (h : l[i]? = some a) : total f (l.set i b) = total f l - f a + f b := by
  induction l generalizing i with
  | nil => cases h
  | cons x l ih =>
      cases i with
      | zero =>
          obtain rfl := Option.some.inj h
          rw [List.set_cons_zero, total_cons, total_cons]
          omega
      | succ i =>
          rw [List.set_cons_succ, total_cons, total_cons, ih h]
          omega

theorem total_nonneg (hf : ∀ x ∈ l, 0 ≤ f x) : 0 ≤ total f l := by
  unfold total
  refine List.sum_nonneg fun y hy ↦ ?_
  obtain ⟨x, hx, rfl⟩ := List.mem_map.mp hy
  exact hf x hx

-- One entry is at most the total, if none is negative.
theorem le_total (hf : ∀ x ∈ l, 0 ≤ f x) (h : l[i]? = some a) : f a ≤ total f l := by
  induction l generalizing i with
  | nil => cases h
  | cons x l ih =>
      have hrest := total_nonneg fun y hy ↦ hf y (List.mem_cons_of_mem x hy)
      rw [total_cons]
      cases i with
      | zero =>
          obtain rfl := Option.some.inj h
          omega
      | succ i =>
          have hx := hf x List.mem_cons_self
          have hle := ih (fun y hy ↦ hf y (List.mem_cons_of_mem x hy)) h
          omega

theorem total_le_length (hf : ∀ x ∈ l, f x ≤ 1) : total f l ≤ l.length := by
  induction l with
  | nil => exact Int.le_refl _
  | cons x l ih =>
      have hx := hf x List.mem_cons_self
      have hrest := ih fun y hy ↦ hf y (List.mem_cons_of_mem x hy)
      rw [total_cons, List.length_cons]
      omega

theorem total_pos_of_mem (hf : ∀ x ∈ l, 0 ≤ f x) (h : a ∈ l) (ha : 0 < f a) : 0 < total f l := by
  obtain ⟨i, hi⟩ := List.mem_iff_getElem?.mp h
  have hle := le_total hf hi
  omega

theorem total_eq_zero_iff (hf : ∀ x ∈ l, 0 ≤ f x) : total f l = 0 ↔ ∀ x ∈ l, f x = 0 := by
  induction l with
  | nil => exact ⟨fun _ ↦ nofun, fun _ ↦ rfl⟩
  | cons x l ih =>
      have hx := hf x List.mem_cons_self
      have hrest := total_nonneg fun y hy ↦ hf y (List.mem_cons_of_mem x hy)
      rw [total_cons, List.forall_mem_cons, ← ih fun y hy ↦ hf y (List.mem_cons_of_mem x hy)]
      omega

theorem exists_of_total_pos (h : 0 < total f l) : ∃ x ∈ l, 0 < f x := by
  induction l with
  | nil => cases h
  | cons x l ih =>
      by_cases hx : 0 < f x
      · exact ⟨x, List.mem_cons_self, hx⟩
      · rw [total_cons] at h
        obtain ⟨y, hy, hpos⟩ := ih (by omega)
        exact ⟨y, List.mem_cons_of_mem x hy, hpos⟩

end Reasoning
