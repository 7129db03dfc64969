import Mathlib.Data.List.Nodup
import Mathlib.Data.List.Sort

/-!
# Keyed rows

A table with a primary key as a list of rows: looking a row up, rewriting the rows that meet a
condition, deleting and appending rows, and selecting rows in an order up to a limit.
-/

namespace Reasoning

variable {ρ κ : Type*} [DecidableEq κ]

/-- The row with key `k`. -/
def rowAt (key : ρ → κ) (l : List ρ) (k : κ) : Option ρ :=
  l.find? fun r ↦ key r = k

theorem rowAt_some {key : ρ → κ} {l : List ρ} {k : κ} {r : ρ} (h : rowAt key l k = some r) :
    r ∈ l ∧ key r = k := by
  unfold rowAt at h
  exact ⟨List.mem_of_find?_eq_some h, by simpa using List.find?_some h⟩

theorem rowAt_none_iff {key : ρ → κ} {l : List ρ} {k : κ} :
    rowAt key l k = none ↔ k ∉ l.map key := by
  simp only [rowAt, List.find?_eq_none, decide_eq_true_eq, List.mem_map, not_exists, not_and]

theorem rowAt_cons (key : ρ → κ) (r : ρ) (l : List ρ) (k : κ) :
    rowAt key (r :: l) k = if key r = k then some r else rowAt key l k := by
  by_cases h : key r = k
  · rw [if_pos h, rowAt, List.find?_cons_of_pos (by simpa using h)]
  · rw [if_neg h, rowAt, List.find?_cons_of_neg (by simpa using h), rowAt]

-- Where keys are unique, membership and lookup agree.
theorem rowAt_eq_some_iff {key : ρ → κ} {l : List ρ} (hl : (l.map key).Nodup) {k : κ} {r : ρ} :
    rowAt key l k = some r ↔ r ∈ l ∧ key r = k := by
  refine ⟨rowAt_some, ?_⟩
  -- by induction on the table: a later row has another key than the first one
  induction l with
  | nil => simp
  | cons x xs ih =>
      rintro ⟨hr, rfl⟩
      obtain ⟨hx, hxs⟩ := List.nodup_cons.mp hl
      rw [rowAt_cons]
      rcases List.mem_cons.mp hr with rfl | hr
      · exact if_pos rfl
      · have hne : key x ≠ key r := fun h ↦ hx (h.symm ▸ List.mem_map_of_mem hr)
        rw [if_neg hne, ih hxs ⟨hr, rfl⟩]

theorem rowAt_map {key : ρ → κ} {f : ρ → ρ} (hf : ∀ r, key (f r) = key r) (l : List ρ) (k : κ) :
    rowAt key (l.map f) k = (rowAt key l k).map f := by
  induction l with
  | nil => rfl
  | cons x xs ih =>
      rw [List.map_cons, rowAt_cons, rowAt_cons, hf, ih]
      split <;> rfl

theorem rowAt_filter {key : ρ → κ} {l : List ρ} (hl : (l.map key).Nodup) (p : ρ → Bool) (k : κ) :
    rowAt key (l.filter p) k = (rowAt key l k).filter p := by
  have hl' : ((l.filter p).map key).Nodup := hl.sublist (List.filter_sublist.map key)
  ext r
  rw [rowAt_eq_some_iff hl', Option.filter_eq_some_iff, rowAt_eq_some_iff hl, List.mem_filter]
  tauto

theorem rowAt_append_single {key : ρ → κ} {l : List ρ} {r : ρ} (hr : key r ∉ l.map key) (k : κ) :
    rowAt key (l ++ [r]) k = if key r = k then some r else rowAt key l k := by
  unfold rowAt
  rw [List.find?_append]
  by_cases h : key r = k
  · have hn : List.find? (fun r ↦ decide (key r = k)) l = none :=
      rowAt_none_iff.mpr (h ▸ hr)
    rw [if_pos h, hn, Option.none_or]
    exact List.find?_cons_of_pos (by simpa using h)
  · rw [if_neg h, List.find?_cons_of_neg (by simpa using h), List.find?_nil, Option.or_none]

/-- Rewrite with `f` the rows that meet `p`. -/
def updateRows (p : ρ → Bool) (f : ρ → ρ) (l : List ρ) : List ρ :=
  l.map fun r ↦ if p r then f r else r

theorem mem_updateRows {p : ρ → Bool} {f : ρ → ρ} {l : List ρ} {x : ρ}
    (h : x ∈ updateRows p f l) :
    ∃ y ∈ l, (p y = true ∧ x = f y) ∨ (p y = false ∧ x = y) := by
  obtain ⟨y, hy, rfl⟩ := List.mem_map.mp h
  refine ⟨y, hy, ?_⟩
  cases hp : p y with
  | true => exact Or.inl ⟨rfl, if_pos rfl⟩
  | false => exact Or.inr ⟨rfl, if_neg Bool.false_ne_true⟩

theorem map_updateRows {α : Type*} {g : ρ → α} {p : ρ → Bool} {f : ρ → ρ}
    (hf : ∀ r, p r → g (f r) = g r) (l : List ρ) : (updateRows p f l).map g = l.map g := by
  rw [updateRows, List.map_map]
  refine List.map_congr_left fun r _ ↦ ?_
  by_cases h : p r
  · simp only [Function.comp_apply, h, if_true, hf r h]
  · simp only [Function.comp_apply, h, if_false, Bool.false_eq_true]

theorem rowAt_updateRows {key : ρ → κ} {p : ρ → Bool} {f : ρ → ρ}
    (hf : ∀ r, p r → key (f r) = key r) (l : List ρ) (k : κ) :
    rowAt key (updateRows p f l) k = (rowAt key l k).map fun r ↦ if p r then f r else r := by
  refine rowAt_map (fun r ↦ ?_) l k
  split
  · exact hf r ‹_›
  · rfl

/-- The rows of a `SELECT ... WHERE cand ORDER BY before LIMIT limit`. -/
def selectRows (cand : ρ → Bool) (before : ρ → ρ → Prop) [DecidableRel before] (limit : Nat)
    (l : List ρ) : List ρ :=
  ((l.filter cand).insertionSort before).take limit

section Select

variable {cand : ρ → Bool} {before : ρ → ρ → Prop} [DecidableRel before] {limit : Nat}
  {l : List ρ} {r : ρ}

theorem mem_of_mem_selectRows (h : r ∈ selectRows cand before limit l) : r ∈ l ∧ cand r :=
  List.mem_filter.mp ((List.perm_insertionSort before _).mem_iff.mp (List.mem_of_mem_take h))

-- A candidate is selected when fewer than `limit` others come before it.
theorem mem_selectRows_of_rank [DecidableEq ρ] [Std.Total before] [IsTrans ρ before]
    (hl : l.Nodup) (hr : r ∈ l) (hc : cand r)
    (hrank : (l.filter fun x ↦ cand x && decide (before x r) && decide (x ≠ r)).length < limit) :
    r ∈ selectRows cand before limit l := by
  have hperm := List.perm_insertionSort before (l.filter cand)
  have hnodup : ((l.filter cand).insertionSort before).Nodup :=
    hperm.nodup_iff.mpr (hl.filter _)
  have hmem : r ∈ (l.filter cand).insertionSort before :=
    hperm.mem_iff.mpr (List.mem_filter.mpr ⟨hr, hc⟩)
  by_contra hnot
  -- `r` sorts after the first `limit` candidates, so all of those come before it
  have hsplit := List.take_append_drop limit ((l.filter cand).insertionSort before)
  have hdrop : r ∈ ((l.filter cand).insertionSort before).drop limit :=
    (List.mem_append.mp (hsplit.symm ▸ hmem)).resolve_left hnot
  have hsorted := List.pairwise_insertionSort before (l.filter cand)
  rw [← hsplit, List.pairwise_append] at hsorted
  have hsub : selectRows cand before limit l ⊆
      l.filter fun x ↦ cand x && decide (before x r) && decide (x ≠ r) := by
    intro x hx
    obtain ⟨hxl, hxc⟩ := mem_of_mem_selectRows hx
    have hb : before x r := hsorted.2.2 x hx r hdrop
    have hne : x ≠ r := fun h ↦ hnot (h ▸ hx)
    simp only [List.mem_filter, hxl, hxc, hb, hne, ne_eq, not_false_eq_true, decide_true,
      Bool.and_self, and_self]
  have hlen : (selectRows cand before limit l).length = limit := by
    have h := List.length_pos_of_mem hdrop
    rw [List.length_drop] at h
    rw [selectRows, List.length_take]
    omega
  have hle := (List.subperm_of_subset (hnodup.sublist (List.take_sublist limit _)) hsub).length_le
  rw [selectRows] at hlen
  omega

-- A candidate that is passed over comes after the rows of a full selection.
theorem selectRows_of_not_mem [Std.Total before] [IsTrans ρ before] (hr : r ∈ l) (hc : cand r)
    (hnot : r ∉ selectRows cand before limit l) :
    (selectRows cand before limit l).length = limit ∧
      ∀ x ∈ selectRows cand before limit l, before x r ∧ x ≠ r := by
  have hperm := List.perm_insertionSort before (l.filter cand)
  have hmem : r ∈ (l.filter cand).insertionSort before :=
    hperm.mem_iff.mpr (List.mem_filter.mpr ⟨hr, hc⟩)
  have hsplit := List.take_append_drop limit ((l.filter cand).insertionSort before)
  have hdrop : r ∈ ((l.filter cand).insertionSort before).drop limit :=
    (List.mem_append.mp (hsplit.symm ▸ hmem)).resolve_left hnot
  have hsorted := List.pairwise_insertionSort before (l.filter cand)
  rw [← hsplit, List.pairwise_append] at hsorted
  refine ⟨?_, fun x hx ↦ ⟨hsorted.2.2 x hx r hdrop, fun h ↦ hnot (h ▸ hx)⟩⟩
  have hlen := List.length_pos_of_mem hdrop
  rw [List.length_drop] at hlen
  rw [selectRows, List.length_take]
  omega

end Select

end Reasoning
