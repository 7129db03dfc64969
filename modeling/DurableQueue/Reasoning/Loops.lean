import Mathlib.Logic.Function.Iterate
import Mathlib.Tactic.Common

/-!
# Loops that count their turns

The meaning of `while ahead: state = next(state)` as a derivation, one rule for each way a turn can
go.  A loop that never ends has no derivation.
-/

namespace Reasoning

/-- `While ahead next s n t`: from `s` the loop ends in `t`, after `n` turns. -/
inductive While {σ : Type*} (ahead : σ → Bool) (next : σ → σ) : σ → Nat → σ → Prop where
  | done {s : σ} : ahead s = false → While ahead next s 0 s
  | turn {s t : σ} {n : Nat} :
      ahead s = true → While ahead next (next s) n t → While ahead next s (n + 1) t

namespace While

variable {σ : Type*} {ahead : σ → Bool} {next : σ → σ} {s t t' : σ} {n n' k : Nat}

theorem turns_eq (h : While ahead next s n t) (h' : While ahead next s n' t') : n = n' := by
  induction h generalizing n' with
  | done hs =>
      cases h' with
      | done _ => rfl
      | turn hs' _ =>
          rw [hs] at hs'
          cases hs'
  | turn hs _ ih =>
      cases h' with
      | done hs' =>
          rw [hs] at hs'
          cases hs'
      | turn _ h' => rw [ih h']

/-- A loop that is over somewhere along the way ends there or earlier. -/
theorem exists_of_stop (hstop : ahead (next^[k] s) = false) :
    ∃ n ≤ k, ∃ t, While ahead next s n t := by
  induction k generalizing s with
  | zero => exact ⟨0, Nat.le_refl 0, s, .done hstop⟩
  | succ k ih =>
      cases hs : ahead s with
      | false => exact ⟨0, Nat.zero_le _, s, .done hs⟩
      | true =>
          obtain ⟨n, hn, t, h⟩ := ih hstop
          exact ⟨n + 1, Nat.succ_le_succ hn, t, .turn hs h⟩

/-- A loop each of whose turns lowers a rank ends, with what its turns keep. -/
theorem exists_of_rank (Inv : σ → Prop) (rank : σ → Nat)
    (hturn : ∀ s, Inv s → ahead s = true → Inv (next s) ∧ rank (next s) < rank s) (hs : Inv s) :
    ∃ n ≤ rank s, ∃ t, While ahead next s n t ∧ Inv t ∧ ahead t = false := by
  induction hrank : rank s using Nat.strongRecOn generalizing s with
  | ind m ih =>
      cases hahead : ahead s with
      | false => exact ⟨0, Nat.zero_le m, s, .done hahead, hs, hahead⟩
      | true =>
          obtain ⟨hnext, hlt⟩ := hturn s hs hahead
          obtain ⟨n, hn, t, h, ht, hstop⟩ := ih _ (hrank ▸ hlt) hnext rfl
          exact ⟨n + 1, by omega, t, .turn hahead h, ht, hstop⟩

theorem turns_le (h : While ahead next s n t) (hstop : ahead (next^[k] s) = false) : n ≤ k := by
  obtain ⟨n', hn', t', h'⟩ := exists_of_stop hstop
  rw [h.turns_eq h']
  exact hn'

end While

end Reasoning
