import DurableQueue.Reasoning.Runs
import Mathlib.Data.List.Infix

/-!
# A log that a crash cuts off

Commits are appended to a log.  One that waits returns once the log is on disk up to and with it,
the others reach the disk some time later, and a crash loses what has not.
-/

namespace Reasoning

structure Logged (ι : Type*) where
  log : List ι
  flushed : Nat

inductive LogAct (ι : Type*) where
  | commit (c : ι)
  | flush (n : Nat)
  | crash (n : Nat)

/-- A log each of whose entries is allowed after those before it. -/
inductive Written {ι : Type*} (allowed : List ι → ι → Prop) : List ι → Prop where
  | nil : Written allowed []
  | concat {log : List ι} {c : ι} :
      Written allowed log → allowed log c → Written allowed (log ++ [c])

theorem Written.invariant {ι : Type*} {allowed : List ι → ι → Prop} {P : List ι → Prop}
    (hnil : P []) (hconcat : ∀ log c, P log → allowed log c → P (log ++ [c])) {log : List ι}
    (h : Written allowed log) : P log := by
  induction h with
  | nil => exact hnil
  | concat _ hc ih => exact hconcat _ _ ih hc

theorem Written.of_append {ι : Type*} {allowed : List ι → ι → Prop} {log rest : List ι}
    (h : Written allowed (log ++ rest)) : Written allowed log := by
  induction rest using List.reverseRecOn with
  | nil => rwa [List.append_nil] at h
  | append_singleton rest c ih =>
      rw [← List.append_assoc] at h
      generalize hall : log ++ rest ++ [c] = all at h
      cases h with
      | nil => cases List.append_ne_nil_of_right_ne_nil _ (List.cons_ne_nil c []) hall
      | concat h _ => exact ih ((List.append_inj' hall rfl).1 ▸ h)

theorem Written.allowed_at {ι : Type*} {allowed : List ι → ι → Prop} {log rest : List ι} {c : ι}
    (h : Written allowed (log ++ c :: rest)) : allowed log c := by
  rw [List.append_cons] at h
  have hlog := h.of_append
  generalize hall : log ++ [c] = all at hlog
  cases hlog with
  | nil => cases List.append_ne_nil_of_right_ne_nil _ (List.cons_ne_nil c []) hall
  | concat _ hc =>
      obtain ⟨rfl, heq⟩ := List.append_inj' hall rfl
      exact (List.singleton_inj.mp heq) ▸ hc

namespace Logged

variable {ι : Type*} {waits : ι → Bool} {allowed : List ι → ι → Prop} {s t : Logged ι}
  {a : LogAct ι} {as : List (LogAct ι)}

inductive Step (waits : ι → Bool) (allowed : List ι → ι → Prop) :
    Logged ι → LogAct ι → Logged ι → Prop where
  | commit {s : Logged ι} {c : ι} (hc : allowed s.log c) :
      Step waits allowed s (.commit c)
        ⟨s.log ++ [c], if waits c then s.log.length + 1 else s.flushed⟩
  | flush {s : Logged ι} {n : Nat} (hmore : s.flushed ≤ n) (hn : n ≤ s.log.length) :
      Step waits allowed s (.flush n) { s with flushed := n }
  -- some of what nobody has waited for may have reached the disk too
  | crash {s : Logged ι} {n : Nat} (hmore : s.flushed ≤ n) (hn : n ≤ s.log.length) :
      Step waits allowed s (.crash n) ⟨s.log.take n, n⟩

def writeAhead (waits : ι → Bool) (allowed : List ι → ι → Prop) :
    System (Logged ι) (LogAct ι) where
  init s := s = ⟨[], 0⟩
  step := Step waits allowed

structure Inv (waits : ι → Bool) (allowed : List ι → ι → Prop) (s : Logged ι) : Prop where
  flushed_le : s.flushed ≤ s.log.length
  written : Written allowed s.log
  unflushed : ∀ c ∈ s.log.drop s.flushed, waits c = false

theorem Inv.step (h : s.Inv waits allowed) (ha : Step waits allowed s a t) :
    t.Inv waits allowed := by
  cases ha with
  | @commit c hc =>
      refine ⟨?_, .concat h.written hc, ?_⟩ <;> cases hw : waits c
      · simp only [Bool.false_eq_true, if_false, List.length_append, List.length_singleton]
        exact Nat.le_succ_of_le h.flushed_le
      · simp only [if_true, List.length_append, List.length_singleton, le_refl]
      · simp only [Bool.false_eq_true, if_false]
        intro d hd
        rw [List.drop_append_of_le_length h.flushed_le] at hd
        rcases List.mem_append.mp hd with hd | hd
        · exact h.unflushed d hd
        · exact List.mem_singleton.mp hd ▸ hw
      · simp only [if_true]
        intro d hd
        rw [List.drop_of_length_le (by simp only [List.length_append, List.length_singleton,
          le_refl])] at hd
        cases hd
  | @flush n hmore hn =>
      refine ⟨hn, h.written, fun d hd ↦ h.unflushed d ?_⟩
      exact (List.drop_suffix_drop_left s.log hmore).mem hd
  | @crash n hmore hn =>
      refine ⟨by rw [List.length_take, Nat.min_eq_left hn], ?_, fun d hd ↦ ?_⟩
      · exact (show Written allowed (s.log.take n ++ s.log.drop n) by
          rw [List.take_append_drop]; exact h.written).of_append
      · rw [List.drop_of_length_le (by rw [List.length_take]; exact Nat.min_le_left _ _)] at hd
        cases hd

theorem inv_of_reachable (h : (writeAhead waits allowed).Reachable s) : s.Inv waits allowed := by
  induction h with
  | init h =>
      obtain rfl : _ = _ := h
      exact ⟨le_rfl, .nil, nofun⟩
  | step _ ha ih => exact ih.step ha

/-- A first part of the log that is on disk. -/
def OnDisk (p : List ι) (s : Logged ι) : Prop := p <+: s.log ∧ p.length ≤ s.flushed

theorem OnDisk.step {p : List ι} (h : OnDisk p s) (ha : Step waits allowed s a t) :
    OnDisk p t := by
  obtain ⟨hp, hlen⟩ := h
  cases ha with
  | @commit c hc =>
      refine ⟨hp.trans (List.prefix_append _ _), ?_⟩
      split
      · exact Nat.le_succ_of_le hp.length_le
      · exact hlen
  | flush hmore hn => exact ⟨hp, hlen.trans hmore⟩
  | @crash n hmore hn =>
      exact ⟨List.prefix_take_iff.mpr ⟨hp, hlen.trans hmore⟩, hlen.trans hmore⟩

/-- What is on disk stays, whatever crashes follow. -/
theorem OnDisk.run {p : List ι} (h : OnDisk p s) (hrun : (writeAhead waits allowed).Run s as t) :
    p <+: t.log := by
  induction hrun with
  | nil => exact h.1
  | cons ha _ ih => exact ih (h.step ha)

/-- A commit that has waited is on disk. -/
theorem onDisk_of_waits {c : ι} (hw : waits c = true) (ha : Step waits allowed s (.commit c) t) :
    t.log = s.log ++ [c] ∧ OnDisk t.log t := by
  cases ha with
  | commit hc =>
      refine ⟨rfl, List.prefix_refl _, ?_⟩
      simp only [hw, if_true, List.length_append, List.length_singleton, le_refl]

/-- What a crash loses, nobody has waited for. -/
theorem lost_of_crash {n : Nat} (h : s.Inv waits allowed) (ha : Step waits allowed s (.crash n) t) :
    ∃ lost, s.log = t.log ++ lost ∧ ∀ c ∈ lost, waits c = false := by
  cases ha with
  | crash hmore hn =>
      refine ⟨s.log.drop n, (List.take_append_drop n s.log).symm, fun c hc ↦ h.unflushed c ?_⟩
      exact (List.drop_suffix_drop_left s.log hmore).mem hc

end Logged

end Reasoning
