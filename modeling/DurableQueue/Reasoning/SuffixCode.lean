import Mathlib.Data.List.Infix
import Mathlib.Data.Set.Defs

/-!
# Suffix codes

A set of texts none of which ends in another.  A text of the set that stands at the end of a longer
one can be told apart from what precedes it, whatever that is, with no delimiter escaped.
-/

namespace Reasoning

def SuffixCode {α : Type*} (S : Set (List α)) : Prop :=
  ∀ s ∈ S, ∀ t ∈ S, s <:+ t → s = t

namespace SuffixCode

variable {α : Type*} {S : Set (List α)} {s t x y : List α}

/-- Texts of one length cannot be ends of each other, so only ends that are shorter need a look. -/
theorem of_drop
    (h : ∀ s ∈ S, ∀ t ∈ S, s.length < t.length → t.drop (t.length - s.length) ≠ s) :
    SuffixCode S := by
  intro s hs t ht hst
  rcases Nat.lt_or_eq_of_le hst.length_le with hlt | heq
  · exact absurd (List.suffix_iff_eq_drop.mp hst).symm (h s hs t ht hlt)
  · exact hst.eq_of_length heq

theorem append_inj (hS : SuffixCode S) (hs : s ∈ S) (ht : t ∈ S) (h : x ++ s = y ++ t) :
    x = y ∧ s = t := by
  have hst : s <:+ y ++ t := h ▸ List.suffix_append x s
  have hts : t <:+ y ++ t := List.suffix_append y t
  -- of two ends of one text, the shorter is an end of the longer
  have heq : s = t := by
    rcases Nat.le_total s.length t.length with hle | hle
    · exact hS s hs t ht (List.suffix_of_suffix_length_le hst hts hle)
    · exact (hS t ht s hs (List.suffix_of_suffix_length_le hts hst hle)).symm
  subst heq
  exact ⟨List.append_cancel_right h, rfl⟩

end SuffixCode

end Reasoning
