import Mathlib.Data.List.Basic

/-!
# Runs of a labelled transition system

Reachability, runs and their observations, independent of what the system models.  A property
that only holds while the environment keeps some promise is a property of the restricted system.
-/

namespace Reasoning

/-- A transition system: where it may start, and what each labelled step may do. -/
structure System (σ ι : Type*) where
  init : σ → Prop
  step : σ → ι → σ → Prop

namespace System

variable {σ ι τ ε : Type*}

inductive Reachable (M : System σ ι) : σ → Prop where
  | init {s : σ} : M.init s → Reachable M s
  | step {s t : σ} {a : ι} : Reachable M s → M.step s a t → Reachable M t

/-- The runs of `M` all of whose steps meet `C` in the state they are taken from. -/
def restrict (M : System σ ι) (C : σ → ι → Prop) : System σ ι where
  init := M.init
  step s a t := C s a ∧ M.step s a t

theorem Reachable.invariant {M : System σ ι} {Inv : σ → Prop}
    (hinit : ∀ s, M.init s → Inv s) (hstep : ∀ s a t, Inv s → M.step s a t → Inv t)
    {s : σ} (h : M.Reachable s) : Inv s := by
  induction h with
  | init h => exact hinit _ h
  | step _ ha ih => exact hstep _ _ _ ih ha

/-- An inductive invariant may lean on one that is already established. -/
theorem Reachable.invariant_with {M : System σ ι} {Known Inv : σ → Prop}
    (hknown : ∀ s, M.Reachable s → Known s) (hinit : ∀ s, M.init s → Inv s)
    (hstep : ∀ s a t, Known s → Inv s → M.step s a t → Inv t)
    {s : σ} (h : M.Reachable s) : Inv s := by
  induction h with
  | init h => exact hinit _ h
  | step hr ha ih => exact hstep _ _ _ (hknown _ hr) ih ha

theorem Reachable.of_restrict {M : System σ ι} {C : σ → ι → Prop} {s : σ}
    (h : (M.restrict C).Reachable s) : M.Reachable s := by
  induction h with
  | init h => exact .init h
  | step _ ha ih => exact .step ih ha.2

theorem Reachable.restrict_mono {M : System σ ι} {C C' : σ → ι → Prop} {s : σ}
    (h : (M.restrict C).Reachable s) (hC : ∀ s a, C s a → C' s a) :
    (M.restrict C').Reachable s := by
  induction h with
  | init h => exact .init h
  | step _ ha ih => exact .step ih ⟨hC _ _ ha.1, ha.2⟩

/-- `M.Run s as t`: taking the steps `as` in order leads from `s` to `t`. -/
inductive Run (M : System σ ι) : σ → List ι → σ → Prop where
  | nil (s : σ) : Run M s [] s
  | cons {s t u : σ} {a : ι} {as : List ι} :
      M.step s a t → Run M t as u → Run M s (a :: as) u

theorem Run.reachable {M : System σ ι} {s t : σ} {as : List ι}
    (h : M.Run s as t) (hs : M.Reachable s) : M.Reachable t := by
  induction h with
  | nil => exact hs
  | cons ha _ ih => exact ih (.step hs ha)

theorem Run.trans {M : System σ ι} {s t u : σ} {as bs : List ι}
    (h : M.Run s as t) (h' : M.Run t bs u) : M.Run s (as ++ bs) u := by
  induction h with
  | nil => exact h'
  | cons ha _ ih => exact .cons ha (ih h')

theorem Run.mono {M N : System σ ι} {s t : σ} {as : List ι}
    (hstep : ∀ s a t, M.step s a t → N.step s a t) (h : M.Run s as t) : N.Run s as t := by
  induction h with
  | nil s => exact .nil s
  | cons ha _ ih => exact .cons (hstep _ _ _ ha) ih

theorem Run.single {M : System σ ι} {s t : σ} {a : ι} (ha : M.step s a t) : M.Run s [a] t :=
  .cons ha (.nil t)

theorem Run.nil_iff {M : System σ ι} {s t : σ} : M.Run s [] t ↔ s = t :=
  ⟨fun h ↦ by cases h; rfl, fun h ↦ h ▸ .nil s⟩

theorem Run.cons_iff {M : System σ ι} {s u : σ} {a : ι} {as : List ι} :
    M.Run s (a :: as) u ↔ ∃ t, M.step s a t ∧ M.Run t as u := by
  constructor
  · rintro (_ | ⟨ha, h⟩)
    exact ⟨_, ha, h⟩
  · rintro ⟨t, ha, h⟩
    exact .cons ha h

theorem Run.append_iff {M : System σ ι} {s u : σ} {as bs : List ι} :
    M.Run s (as ++ bs) u ↔ ∃ t, M.Run s as t ∧ M.Run t bs u := by
  constructor
  · intro h
    induction as generalizing s with
    | nil => exact ⟨s, .nil s, h⟩
    | cons a as ih =>
        obtain ⟨v, ha, hr⟩ := Run.cons_iff.mp h
        obtain ⟨t, h₁, h₂⟩ := ih hr
        exact ⟨t, .cons ha h₁, h₂⟩
  · rintro ⟨t, h, h'⟩
    exact h.trans h'

theorem Run.concat_iff {M : System σ ι} {s u : σ} {a : ι} {as : List ι} :
    M.Run s (as ++ [a]) u ↔ ∃ t, M.Run s as t ∧ M.step t a u := by
  rw [Run.append_iff]
  refine exists_congr fun t ↦ and_congr_right fun _ ↦ ?_
  rw [Run.cons_iff]
  constructor
  · rintro ⟨v, ha, hv⟩
    exact Run.nil_iff.mp hv ▸ ha
  · intro ha
    exact ⟨u, ha, .nil u⟩

/-! ## Steps as functions -/

/-- The system whose steps are functions behind guards. -/
def guarded (init : σ → Prop) (enabled : σ → ι → Prop) (next : σ → ι → σ) : System σ ι where
  init := init
  step s a t := enabled s a ∧ t = next s a

/-- Take the steps in order, as long as each is enabled. -/
def play (enabled : σ → ι → Prop) [∀ s a, Decidable (enabled s a)] (next : σ → ι → σ) :
    σ → List ι → Option σ
  | s, [] => some s
  | s, a :: as => if enabled s a then play enabled next (next s a) as else none

theorem run_of_play {init : σ → Prop} {enabled : σ → ι → Prop}
    [∀ s a, Decidable (enabled s a)] {next : σ → ι → σ} {s t : σ} (as : List ι)
    (h : play enabled next s as = some t) : (guarded init enabled next).Run s as t := by
  induction as generalizing s with
  | nil =>
      rw [← Option.some.inj h]
      exact .nil s
  | cons a as ih =>
      unfold play at h
      by_cases ha : enabled s a
      · rw [if_pos ha] at h
        exact .cons ⟨ha, rfl⟩ (ih h)
      · rw [if_neg ha] at h
        cases h

theorem restrict_guarded (init : σ → Prop) (enabled C : σ → ι → Prop) (next : σ → ι → σ) :
    (guarded init enabled next).restrict C =
      guarded init (fun s a ↦ C s a ∧ enabled s a) next := by
  simp only [restrict, guarded, and_assoc]

theorem reachable_restrict_of_play {init : σ → Prop} {enabled C : σ → ι → Prop}
    [∀ s a, Decidable (enabled s a)] [∀ s a, Decidable (C s a)] {next : σ → ι → σ} {s t : σ}
    (hs : init s) (as : List ι) (h : play (fun s a ↦ C s a ∧ enabled s a) next s as = some t) :
    ((guarded init enabled next).restrict C).Reachable t := by
  rw [restrict_guarded]
  exact (run_of_play as h).reachable (.init hs)

/-- A run seen through `obs`, which reads off each step the events it shows. -/
inductive Observed (M : System σ ι) (obs : σ → ι → σ → List ε) : σ → List ε → σ → Prop where
  | nil (s : σ) : Observed M obs s [] s
  | cons {s t u : σ} {a : ι} {es : List ε} :
      M.step s a t → Observed M obs t es u → Observed M obs s (obs s a t ++ es) u

theorem Observed.of_restrict {M : System σ ι} {C : σ → ι → Prop} {obs : σ → ι → σ → List ε}
    {s t : σ} {es : List ε} (h : (M.restrict C).Observed obs s es t) : M.Observed obs s es t := by
  induction h with
  | nil => exact .nil _
  | cons ha _ ih => exact .cons ha.2 ih

theorem Observed.reachable {M : System σ ι} {obs : σ → ι → σ → List ε} {s t : σ} {es : List ε}
    (h : M.Observed obs s es t) (hs : M.Reachable s) : M.Reachable t := by
  induction h with
  | nil => exact hs
  | cons ha _ ih => exact ih (.step hs ha)

theorem Run.observed {M : System σ ι} {s t : σ} {as : List ι} (h : M.Run s as t)
    (obs : σ → ι → σ → List ε) : ∃ es, M.Observed obs s es t := by
  induction h with
  | nil s => exact ⟨[], .nil s⟩
  | cons ha _ ih =>
      obtain ⟨es, hes⟩ := ih
      exact ⟨_, .cons ha hes⟩

/-- Forward simulation: if each step of `M` can be matched by a run of `A` on what the step shows,
so can each run of `M`. -/
theorem Observed.simulated {M : System σ ι} {A : System τ ε} {obs : σ → ι → σ → List ε}
    (R : σ → τ → Prop)
    (hstep : ∀ s a t x, R s x → M.step s a t → ∃ y, A.Run x (obs s a t) y ∧ R t y)
    {s t : σ} {es : List ε} {x : τ} (h : M.Observed obs s es t) (hx : R s x) :
    ∃ y, A.Run x es y ∧ R t y := by
  induction h generalizing x with
  | nil => exact ⟨x, .nil x, hx⟩
  | cons ha _ ih =>
      obtain ⟨y, hy, hR⟩ := hstep _ _ _ _ hx ha
      obtain ⟨z, hz, hR'⟩ := ih hR
      exact ⟨z, hy.trans hz, hR'⟩

end System

end Reasoning
