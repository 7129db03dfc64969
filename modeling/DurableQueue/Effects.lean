import DurableQueue.Reasoning.Runs
import Mathlib.Data.List.Nodup
import Mathlib.Logic.Function.Basic

/-!
# The effects ledger

`effects.py`, and the runs of tasks that use it as `record_effect` says: check, act, record.  Each
run has a connection of its own, and may be cut off anywhere.
-/

open Reasoning

namespace DurableQueue

/-- The committed rows of `effects`, with the PRIMARY KEY. -/
structure EffectLedger where
  keys : List String
  nodup : keys.Nodup

namespace EffectLedger

def empty : EffectLedger := ⟨[], List.nodup_nil⟩

/-- `has_effect`. -/
def hasEffect (l : EffectLedger) (key : String) : Bool := decide (key ∈ l.keys)

/-- `record_effect`, committed. -/
def recordEffect (l : EffectLedger) (key : String) : EffectLedger :=
  if h : key ∈ l.keys then l else ⟨key :: l.keys, List.nodup_cons.mpr ⟨h, l.nodup⟩⟩

theorem hasEffect_iff {l : EffectLedger} {key : String} : l.hasEffect key = true ↔ key ∈ l.keys :=
  decide_eq_true_iff

theorem mem_recordEffect {l : EffectLedger} {key k : String} :
    k ∈ (l.recordEffect key).keys ↔ k = key ∨ k ∈ l.keys := by
  unfold recordEffect
  split
  · rename_i h
    constructor
    · exact Or.inr
    · rintro (rfl | hk)
      · exact h
      · exact hk
  · exact List.mem_cons

end EffectLedger

/-- How far a run has come.  `new` says whether its INSERT has found the key missing.  A run that
dies with its COMMIT on the way leaves it to the server. -/
inductive EffectPhase where
  | checking
  | acting
  | recording
  | inserted (new : Bool)
  | returned
  | died
  | orphaned (new : Bool)
  deriving DecidableEq

namespace EffectPhase

def finished : EffectPhase → Bool
  | .returned => true
  | .died => true
  | .orphaned _ => true
  | _ => false

/-- The act has happened and its record is not committed. -/
def owing : EffectPhase → Bool
  | .recording => true
  | .inserted _ => true
  | _ => false

/-- The act has happened, and its record may be still to come. -/
def acted : EffectPhase → Bool
  | .orphaned _ => true
  | p => p.owing

/-- The run has come across the key in the ledger, or has put it there. -/
def known : EffectPhase → Bool
  | .inserted new => !new
  | .orphaned new => !new
  | .returned => true
  | _ => false

/-- A transaction that holds the key's new row. -/
def holds : EffectPhase → Bool
  | .inserted new => new
  | .orphaned new => new
  | _ => false

end EffectPhase

structure EffectRun where
  key : String
  phase : EffectPhase
  deriving DecidableEq

/-- The ledger, the runs so far, and for each key how often the act has happened and how many runs
have died between their act and their committed record. -/
structure Effects where
  ledger : EffectLedger
  runs : Nat → Option EffectRun
  acts : String → Nat
  died : String → Nat

inductive EffectAct where
  | start (i : Nat) (key : String)
  | check (i : Nat)
  | act (i : Nat) (key : String)
  | insert (i : Nat)
  | commit (i : Nat)
  | crash (i : Nat)
  | crashCommitting (i : Nat)
  | settle (i : Nat) (committed : Bool)

namespace Effects

def start : Effects := ⟨.empty, fun _ ↦ none, fun _ ↦ 0, fun _ ↦ 0⟩

def setRun (s : Effects) (i : Nat) (r : EffectRun) : Effects :=
  { s with runs := Function.update s.runs i (some r) }

/-- One more for one key. -/
def bump (count : String → Nat) (key : String) : String → Nat :=
  Function.update count key (count key + 1)

theorem le_bump (count : String → Nat) (key k : String) : count k ≤ bump count key k := by
  unfold bump
  by_cases hk : k = key
  · rw [hk, Function.update_self]
    exact Nat.le_succ _
  · exact Nat.le_of_eq (Function.update_of_ne hk ..).symm

theorem bump_self (count : String → Nat) (key : String) : bump count key key = count key + 1 :=
  Function.update_self ..

theorem bump_of_ne {count : String → Nat} {key k : String} (h : k ≠ key) :
    bump count key k = count k :=
  Function.update_of_ne h ..

end Effects

open Effects

/-- An INSERT waits for a transaction that holds the key's new row. -/
inductive EffectStep : Effects → EffectAct → Effects → Prop where
  | start {s : Effects} {i : Nat} {key : String} (hnew : s.runs i = none) :
      EffectStep s (.start i key) (s.setRun i ⟨key, .checking⟩)
  | check {s : Effects} {i : Nat} {key : String} (hrun : s.runs i = some ⟨key, .checking⟩) :
      EffectStep s (.check i)
        (s.setRun i ⟨key, if s.ledger.hasEffect key then .returned else .acting⟩)
  | act {s : Effects} {i : Nat} {key : String} (hrun : s.runs i = some ⟨key, .acting⟩) :
      EffectStep s (.act i key)
        { s.setRun i ⟨key, .recording⟩ with acts := bump s.acts key }
  | insert {s : Effects} {i : Nat} {key : String} (hrun : s.runs i = some ⟨key, .recording⟩)
      (hfree : ∀ j r, s.runs j = some r → r.key = key → r.phase.holds = false) :
      EffectStep s (.insert i) (s.setRun i ⟨key, .inserted !s.ledger.hasEffect key⟩)
  | commit {s : Effects} {i : Nat} {key : String} {new : Bool}
      (hrun : s.runs i = some ⟨key, .inserted new⟩) :
      EffectStep s (.commit i)
        { s.setRun i ⟨key, .returned⟩ with
          ledger := if new then s.ledger.recordEffect key else s.ledger }
  | crash {s : Effects} {i : Nat} {key : String} {phase : EffectPhase}
      (hrun : s.runs i = some ⟨key, phase⟩) (hlive : phase.finished = false) :
      EffectStep s (.crash i)
        { s.setRun i ⟨key, .died⟩ with
          died := if phase.owing then bump s.died key else s.died }
  | crashCommitting {s : Effects} {i : Nat} {key : String} {new : Bool}
      (hrun : s.runs i = some ⟨key, .inserted new⟩) :
      EffectStep s (.crashCommitting i)
        { s.setRun i ⟨key, .orphaned new⟩ with died := bump s.died key }
  | settle {s : Effects} {i : Nat} {key : String} {new : Bool} {committed : Bool}
      (hrun : s.runs i = some ⟨key, .orphaned new⟩) :
      EffectStep s (.settle i committed)
        { s.setRun i ⟨key, .died⟩ with
          ledger := if committed && new then s.ledger.recordEffect key else s.ledger }

def effects : System Effects EffectAct where
  init := (· = .start)
  step := EffectStep

namespace Effects

variable {s t : Effects} {a : EffectAct} {i j : Nat} {key k : String} {r x : EffectRun}

theorem runs_setRun_self (s : Effects) (i : Nat) (r : EffectRun) :
    (s.setRun i r).runs i = some r :=
  Function.update_self ..

theorem runs_setRun_of_ne (s : Effects) (r : EffectRun) (h : j ≠ i) :
    (s.setRun i r).runs j = s.runs j :=
  Function.update_of_ne h ..

theorem runs_setRun_cases (h : (s.setRun i r).runs j = some x) :
    j = i ∧ x = r ∨ j ≠ i ∧ s.runs j = some x := by
  by_cases hj : j = i
  · subst hj
    rw [runs_setRun_self] at h
    exact Or.inl ⟨rfl, (Option.some.inj h).symm⟩
  · rw [runs_setRun_of_ne s r hj] at h
    exact Or.inr ⟨hj, h⟩

/-! ## What a step keeps -/

/-- What is recorded stays recorded, and no act is undone. -/
theorem grows (h : EffectStep s a t) :
    (∀ k ∈ s.ledger.keys, k ∈ t.ledger.keys) ∧ ∀ k, s.acts k ≤ t.acts k := by
  cases h with
  | start | check | insert | crash | crashCommitting => exact ⟨fun _ hk ↦ hk, fun _ ↦ Nat.le_refl _⟩
  | act => exact ⟨fun _ hk ↦ hk, le_bump _ _⟩
  | commit | settle =>
      refine ⟨fun k hk ↦ ?_, fun _ ↦ Nat.le_refl _⟩
      simp only
      split
      · exact EffectLedger.mem_recordEffect.mpr (Or.inr hk)
      · exact hk

/-- What the ledger and the runs say has happened has happened. -/
structure Grounded (s : Effects) : Prop where
  recorded : ∀ k ∈ s.ledger.keys, 1 ≤ s.acts k
  acted : ∀ i r, s.runs i = some r → r.phase.acted → 1 ≤ s.acts r.key
  known : ∀ i r, s.runs i = some r → r.phase.known → r.key ∈ s.ledger.keys

-- One run moves on, and the others find no less than before.
theorem Grounded.move (h : s.Grounded) (hruns : t.runs = Function.update s.runs i (some r))
    (hgrows : (∀ k ∈ s.ledger.keys, k ∈ t.ledger.keys) ∧ ∀ k, s.acts k ≤ t.acts k)
    (hrecorded : ∀ k ∈ t.ledger.keys, k ∈ s.ledger.keys ∨ 1 ≤ s.acts k)
    (hacted : r.phase.acted → 1 ≤ t.acts r.key) (hknown : r.phase.known → r.key ∈ t.ledger.keys) :
    t.Grounded := by
  have hcases {j : Nat} {x : EffectRun} (hx : t.runs j = some x) : x = r ∨ s.runs j = some x := by
    rw [hruns] at hx
    rcases runs_setRun_cases (s := s) hx with ⟨-, hx⟩ | ⟨-, hx⟩
    · exact Or.inl hx
    · exact Or.inr hx
  refine ⟨fun k hk ↦ ?_, fun j x hx hphase ↦ ?_, fun j x hx hphase ↦ ?_⟩
  · rcases hrecorded k hk with hold | hdone
    · exact Nat.le_trans (h.recorded k hold) (hgrows.2 k)
    · exact Nat.le_trans hdone (hgrows.2 k)
  · rcases hcases hx with rfl | hold
    · exact hacted hphase
    · exact Nat.le_trans (h.acted j x hold hphase) (hgrows.2 x.key)
  · rcases hcases hx with rfl | hold
    · exact hknown hphase
    · exact hgrows.1 _ (h.known j x hold hphase)

theorem Grounded.step (h : s.Grounded) (ha : EffectStep s a t) : t.Grounded := by
  have hgrows := grows ha
  cases ha with
  | start hnew => exact h.move rfl hgrows (fun _ hk ↦ Or.inl hk) nofun nofun
  | @check i key hrun =>
      refine h.move rfl hgrows (fun _ hk ↦ Or.inl hk) ?_ ?_
      · split <;> exact nofun
      · split
        · rename_i hfound
          exact fun _ ↦ EffectLedger.hasEffect_iff.mp hfound
        · exact nofun
  | @act i key hrun =>
      refine h.move rfl hgrows (fun _ hk ↦ Or.inl hk) (fun _ ↦ ?_) nofun
      change 1 ≤ bump s.acts key key
      rw [bump_self]
      exact Nat.le_add_left 1 _
  | @insert i key hrun hfree =>
      have hacted := h.acted _ _ hrun rfl
      refine h.move rfl hgrows (fun _ hk ↦ Or.inl hk) (fun _ ↦ hacted) fun hold ↦ ?_
      have hfound : key ∈ s.ledger.keys := by
        simpa only [EffectPhase.known, Bool.not_not, EffectLedger.hasEffect_iff] using hold
      exact hfound
  | @commit i key new hrun =>
      have hacted := h.acted _ _ hrun rfl
      cases new with
      | true =>
          refine h.move rfl hgrows (fun k hk ↦ ?_) nofun
            fun _ ↦ EffectLedger.mem_recordEffect.mpr (Or.inl rfl)
          rcases EffectLedger.mem_recordEffect.mp hk with rfl | hk
          · exact Or.inr hacted
          · exact Or.inl hk
      | false =>
          have hknown := h.known _ _ hrun rfl
          exact h.move rfl hgrows (fun _ hk ↦ Or.inl hk) nofun fun _ ↦ hknown
  | crash hrun hlive => exact h.move rfl hgrows (fun _ hk ↦ Or.inl hk) nofun nofun
  | crashCommitting hrun =>
      have hacted := h.acted _ _ hrun rfl
      have hknown := h.known _ _ hrun
      exact h.move rfl hgrows (fun _ hk ↦ Or.inl hk) (fun _ ↦ hacted) hknown
  | @settle i key new committed hrun =>
      refine h.move rfl hgrows (fun k hk ↦ ?_) nofun nofun
      have hacted := h.acted _ _ hrun rfl
      simp only at hk
      split at hk
      · rcases EffectLedger.mem_recordEffect.mp hk with rfl | hk
        · exact Or.inr hacted
        · exact Or.inl hk
      · exact Or.inl hk

theorem grounded_of_reachable (hs : effects.Reachable s) : s.Grounded :=
  hs.invariant (by rintro _ rfl; exact ⟨nofun, nofun, nofun⟩) fun _ _ _ h ha ↦ h.step ha

/-! ## After the record -/

/-- The key is in the ledger, and the run has not found it missing. -/
def Warned (key : String) (i : Nat) (s : Effects) : Prop :=
  key ∈ s.ledger.keys ∧ s.runs i ≠ some ⟨key, .acting⟩

theorem Warned.step (h : Warned key i s) (ha : EffectStep s a t) :
    a ≠ .act i key ∧ Warned key i t := by
  obtain ⟨hkey, hnot⟩ := h
  have hkey' := (grows ha).1 key hkey
  -- only the run's own next step could take it to its act
  have hmove {j : Nat} {r : EffectRun} (hruns : t.runs = Function.update s.runs j (some r))
      (hr : r ≠ ⟨key, .acting⟩) : Warned key i t := by
    refine ⟨hkey', fun hact ↦ ?_⟩
    rw [hruns] at hact
    rcases runs_setRun_cases (s := s) hact with ⟨-, heq⟩ | ⟨-, hold⟩
    · exact hr heq.symm
    · exact hnot hold
  cases ha with
  | start hnew => exact ⟨nofun, hmove rfl (by simp)⟩
  | @check j k hrun =>
      refine ⟨nofun, hmove rfl fun heq ↦ ?_⟩
      obtain ⟨rfl, hphase⟩ := EffectRun.mk.inj heq
      rw [if_pos (EffectLedger.hasEffect_iff.mpr hkey)] at hphase
      cases hphase
  | @act j k hrun =>
      refine ⟨?_, hmove rfl (by simp)⟩
      rintro ⟨⟩
      exact hnot hrun
  | insert hrun hfree => exact ⟨nofun, hmove rfl (by simp)⟩
  | commit hrun => exact ⟨nofun, hmove rfl (by simp)⟩
  | crash hrun hlive => exact ⟨nofun, hmove rfl (by simp)⟩
  | crashCommitting hrun => exact ⟨nofun, hmove rfl (by simp)⟩
  | settle hrun => exact ⟨nofun, hmove rfl (by simp)⟩

theorem Warned.run {as : List EffectAct} (h : Warned key i s) (hr : effects.Run s as t) :
    .act i key ∉ as := by
  induction hr with
  | nil => exact List.not_mem_nil
  | cons ha _ ih =>
      obtain ⟨hne, hnext⟩ := h.step ha
      intro hmem
      rcases List.mem_cons.mp hmem with heq | hlater
      · exact hne heq.symm
      · exact ih hnext hlater

/-! ## One run at a time -/

/-- No run for the key begins while another is under way. -/
def Alone (key : String) (s : Effects) (a : EffectAct) : Prop :=
  ∀ i, a = .start i key → ∀ j r, s.runs j = some r → r.key = key → r.phase.finished = true

/-- Acts beyond the first are paid for by a death between act and record. -/
structure Counted (key : String) (s : Effects) : Prop where
  alone : ∀ i j r x, s.runs i = some r → s.runs j = some x → r.key = key → x.key = key →
    r.phase.finished = false → x.phase.finished = false → i = j
  bound : s.acts key ≤ s.died key + 1
  acting : ∀ i r, s.runs i = some r → r.key = key → r.phase = .acting → s.acts key ≤ s.died key
  unpaid : key ∉ s.ledger.keys →
    (∀ i r, s.runs i = some r → r.key = key → r.phase.owing = false) → s.acts key ≤ s.died key

theorem owing_of_finished {p : EffectPhase} (h : p.finished = true) : p.owing = false := by
  cases p with
  | returned | died | orphaned => rfl
  | checking | acting | recording | inserted => cases h

-- While one run for the key is under way, the others are over.
theorem Counted.finished_of_ne (h : Counted key s) {p : EffectPhase}
    (hrun : s.runs i = some ⟨key, p⟩) (hlive : p.finished = false) (hj : s.runs j = some x)
    (hkey : x.key = key) (hne : j ≠ i) : x.phase.finished = true := by
  by_contra hfinished
  exact hne (h.alone j i x _ hj hrun hkey rfl (Bool.eq_false_iff.mpr hfinished) hlive)

theorem Counted.owing_false (h : Counted key s) {p : EffectPhase}
    (hrun : s.runs i = some ⟨key, p⟩) (hlive : p.finished = false) (hp : p.owing = false) :
    ∀ j x, s.runs j = some x → x.key = key → x.phase.owing = false := by
  intro j x hj hkey
  by_cases hne : j = i
  · subst hne
    obtain rfl := Option.some.inj (hrun.symm.trans hj)
    exact hp
  · exact owing_of_finished (h.finished_of_ne hrun hlive hj hkey hne)

/-- A run for another key moves on. -/
theorem Counted.other (h : Counted key s) (hruns : t.runs = Function.update s.runs i (some r))
    (hnew : r.key ≠ key) (hold : ∀ x, s.runs i = some x → x.key ≠ key)
    (hledger : ∀ k ∈ s.ledger.keys, k ∈ t.ledger.keys) (hacts : t.acts key = s.acts key)
    (hdied : t.died key = s.died key) : Counted key t := by
  have hcases {j : Nat} {x : EffectRun} (hx : t.runs j = some x) (hkey : x.key = key) :
      s.runs j = some x := by
    rw [hruns] at hx
    rcases runs_setRun_cases (s := s) hx with ⟨-, rfl⟩ | ⟨-, hx⟩
    · exact absurd hkey hnew
    · exact hx
  refine ⟨fun j j' x x' hx hx' hkey hkey' ↦ ?_, ?_, fun j x hx hkey hphase ↦ ?_,
    fun hmissing howing ↦ ?_⟩
  · exact h.alone j j' x x' (hcases hx hkey) (hcases hx' hkey') hkey hkey'
  · rw [hacts, hdied]
    exact h.bound
  · rw [hacts, hdied]
    exact h.acting j x (hcases hx hkey) hkey hphase
  · rw [hacts, hdied]
    refine h.unpaid (fun hmem ↦ hmissing (hledger key hmem)) fun j x hx hkey ↦ ?_
    have hne : j ≠ i := by
      rintro rfl
      exact hold x hx hkey
    exact howing j x (by rw [hruns, Function.update_of_ne hne, hx]) hkey

/-- The one run for the key that is under way moves on. -/
theorem Counted.own (h : Counted key s) {p p' : EffectPhase} (hrun : s.runs i = some ⟨key, p⟩)
    (hlive : p.finished = false) (hruns : t.runs = Function.update s.runs i (some ⟨key, p'⟩))
    (hbound : t.acts key ≤ t.died key + 1) (hacting : p' = .acting → t.acts key ≤ t.died key)
    (hunpaid : key ∉ t.ledger.keys → p'.owing = false → t.acts key ≤ t.died key) :
    Counted key t := by
  have hself : t.runs i = some ⟨key, p'⟩ := by rw [hruns, Function.update_self]
  have hfinished {j : Nat} {x : EffectRun} (hx : t.runs j = some x) (hkey : x.key = key)
      (hne : j ≠ i) : x.phase.finished = true := by
    rw [hruns, Function.update_of_ne hne] at hx
    exact h.finished_of_ne hrun hlive hx hkey hne
  have heq {j : Nat} {x : EffectRun} (hx : t.runs j = some x) (hkey : x.key = key)
      (hnot : x.phase.finished = false) : j = i := by
    by_contra hne
    rw [hfinished hx hkey hne] at hnot
    cases hnot
  refine ⟨fun j j' x x' hx hx' hkey hkey' hlive hlive' ↦ ?_, hbound, fun j x hx hkey hphase ↦ ?_,
    fun hmissing howing ↦ hunpaid hmissing (howing i _ hself rfl)⟩
  · rw [heq hx hkey hlive, heq hx' hkey' hlive']
  · obtain rfl := heq hx hkey (by rw [hphase]; rfl)
    obtain rfl := Option.some.inj (hself.symm.trans hx)
    exact hacting hphase

/-- A run for the key begins, when all the others are over. -/
theorem Counted.begin (h : Counted key s)
    (hfinished : ∀ j x, s.runs j = some x → x.key = key → x.phase.finished = true) :
    Counted key (s.setRun i ⟨key, .checking⟩) := by
  have hcases {j : Nat} {x : EffectRun} (hx : (s.setRun i ⟨key, .checking⟩).runs j = some x)
      (hkey : x.key = key) : j = i ∧ x.phase = .checking ∨ x.phase.finished = true := by
    rcases runs_setRun_cases hx with ⟨rfl, rfl⟩ | ⟨-, hx⟩
    · exact Or.inl ⟨rfl, rfl⟩
    · exact Or.inr (hfinished j x hx hkey)
  refine ⟨fun j j' x x' hx hx' hkey hkey' hlive hlive' ↦ ?_, h.bound,
    fun j x hx hkey hphase ↦ ?_, fun hmissing _ ↦ ?_⟩
  · obtain ⟨rfl, -⟩ := (hcases hx hkey).resolve_right (by simp [hlive])
    obtain ⟨rfl, -⟩ := (hcases hx' hkey').resolve_right (by simp [hlive'])
    rfl
  · rcases hcases hx hkey with ⟨-, hchecking⟩ | hfinished
    · rw [hchecking] at hphase
      cases hphase
    · rw [hphase] at hfinished
      cases hfinished
  · exact h.unpaid hmissing fun j x hx hkey ↦ owing_of_finished (hfinished j x hx hkey)

-- The COMMIT of a dead run arrives or does not: the run has been counted already.
theorem Counted.settle (h : Counted key s) {new : Bool} {l : EffectLedger}
    (hrun : s.runs i = some ⟨k, .orphaned new⟩) (hledger : ∀ k ∈ s.ledger.keys, k ∈ l.keys) :
    Counted key { s.setRun i ⟨k, .died⟩ with ledger := l } := by
  have hcases {j : Nat} {x : EffectRun} (hx : (s.setRun i ⟨k, .died⟩).runs j = some x) :
      x.phase = .died ∨ s.runs j = some x := by
    rcases runs_setRun_cases hx with ⟨-, rfl⟩ | ⟨-, hx⟩
    · exact Or.inl rfl
    · exact Or.inr hx
  refine ⟨fun j j' x x' hx hx' hkey hkey' hlive hlive' ↦ ?_, h.bound,
    fun j x hx hkey hphase ↦ ?_, fun hmissing howing ↦ ?_⟩
  · have hx := (hcases hx).resolve_left fun hp ↦ by rw [hp] at hlive; cases hlive
    have hx' := (hcases hx').resolve_left fun hp ↦ by rw [hp] at hlive'; cases hlive'
    exact h.alone j j' x x' hx hx' hkey hkey' hlive hlive'
  · have hx := (hcases hx).resolve_left fun hp ↦ by rw [hp] at hphase; cases hphase
    exact h.acting j x hx hkey hphase
  · refine h.unpaid (fun hmem ↦ hmissing (hledger key hmem)) fun j x hx hkey ↦ ?_
    by_cases hne : j = i
    · subst hne
      rw [← Option.some.inj (hrun.symm.trans hx)]
      rfl
    · exact howing j x ((runs_setRun_of_ne s _ hne).trans hx) hkey

theorem Counted.step (h : Counted key s) (hg : s.Grounded) (halone : Alone key s a)
    (ha : EffectStep s a t) : Counted key t := by
  have hledger := (grows ha).1
  -- a step of a run for another key changes nothing that is counted here
  have hother {i : Nat} {k : String} {p : EffectPhase} {r : EffectRun}
      (hrun : s.runs i = some ⟨k, p⟩) (hk : k ≠ key)
      (hruns : t.runs = Function.update s.runs i (some r)) (hr : r.key = k)
      (hacts : t.acts key = s.acts key) (hdied : t.died key = s.died key) : Counted key t := by
    refine h.other hruns (hr ▸ hk) (fun x hx ↦ ?_) hledger hacts hdied
    rw [← Option.some.inj (hrun.symm.trans hx)]
    exact hk
  cases ha with
  | @start i k hnew =>
      by_cases hk : k = key
      · subst hk
        exact h.begin (halone i rfl)
      · exact h.other rfl hk (fun x hx ↦ by rw [hnew] at hx; cases hx) hledger rfl rfl
  | @check i k hrun =>
      by_cases hk : k = key
      · subst hk
        have hclear (hmissing : k ∉ s.ledger.keys) : s.acts k ≤ s.died k :=
          h.unpaid hmissing (h.owing_false hrun rfl rfl)
        refine h.own hrun rfl rfl h.bound (fun hact ↦ hclear fun hmem ↦ ?_)
          fun hmissing _ ↦ hclear hmissing
        rw [if_pos (EffectLedger.hasEffect_iff.mpr hmem)] at hact
        cases hact
      · exact hother hrun hk rfl rfl rfl rfl
  | @act i k hrun =>
      by_cases hk : k = key
      · subst hk
        have hclear := h.acting i _ hrun rfl rfl
        refine h.own hrun rfl rfl ?_ nofun nofun
        change bump s.acts k k ≤ s.died k + 1
        rw [bump_self]
        exact Nat.succ_le_succ hclear
      · exact hother hrun hk rfl rfl (bump_of_ne (Ne.symm hk)) rfl
  | @insert i k hrun hfree =>
      by_cases hk : k = key
      · subst hk
        exact h.own hrun rfl rfl h.bound nofun nofun
      · exact hother hrun hk rfl rfl rfl rfl
  | @commit i k new hrun =>
      by_cases hk : k = key
      · subst hk
        refine h.own hrun rfl rfl h.bound nofun fun hmissing _ ↦ absurd ?_ hmissing
        cases new with
        | true => exact EffectLedger.mem_recordEffect.mpr (Or.inl rfl)
        | false => exact hg.known i _ hrun rfl
      · exact hother hrun hk rfl rfl rfl rfl
  | @crash i k p hrun hlive =>
      by_cases hk : k = key
      · subst hk
        have hbound := h.bound
        cases howing : p.owing with
        | true =>
            -- the act without a record is paid for
            have hdied : bump s.died k k = s.died k + 1 := bump_self s.died k
            refine h.own hrun hlive rfl ?_ nofun fun _ _ ↦ ?_
            · simp only [if_true, hdied]
              exact Nat.le_succ_of_le hbound
            · simp only [if_true, hdied]
              exact hbound
        | false =>
            refine h.own hrun hlive rfl ?_ nofun fun hmissing _ ↦ ?_
            · exact hbound
            · exact h.unpaid hmissing (h.owing_false hrun hlive howing)
      · refine hother hrun hk rfl rfl rfl ?_
        simp only
        split
        · exact bump_of_ne (Ne.symm hk)
        · rfl
  | @crashCommitting i k new hrun =>
      by_cases hk : k = key
      · subst hk
        have hbound := h.bound
        have hdied : bump s.died k k = s.died k + 1 := bump_self s.died k
        refine h.own hrun rfl rfl ?_ nofun fun _ _ ↦ ?_
        · simp only [hdied]
          exact Nat.le_succ_of_le hbound
        · simp only [hdied]
          exact hbound
      · exact hother hrun hk rfl rfl rfl (bump_of_ne (Ne.symm hk))
  | settle hrun => exact h.settle hrun hledger

theorem counted_of_reachable (hs : (effects.restrict (Alone key)).Reachable s) :
    Counted key s := by
  refine hs.invariant_with (fun _ h ↦ grounded_of_reachable h.of_restrict) ?_
    fun _ _ _ hg h ha ↦ h.step hg ha.1 ha.2
  rintro _ rfl
  exact ⟨nofun, Nat.zero_le _, nofun, fun _ _ ↦ Nat.le_refl _⟩

/-- What the ledger is worth, in every state of every run. -/
structure AtLeastOnce (s : Effects) : Prop where
  acted : ∀ k ∈ s.ledger.keys, 1 ≤ s.acts k
  stops : ∀ k ∈ s.ledger.keys, ∀ i, s.runs i = none ∨ s.runs i = some ⟨k, .checking⟩ →
    ∀ as t, effects.Run s as t → .act i k ∉ as
  recorded : ∀ i r, s.runs i = some r → r.phase = .returned → r.key ∈ s.ledger.keys
  counted : ∀ k, (effects.restrict (Alone k)).Reachable s → s.acts k ≤ 1 + s.died k

theorem at_least_once (hs : effects.Reachable s) : s.AtLeastOnce where
  acted := (grounded_of_reachable hs).recorded
  stops k hk i hi as t hr := by
    refine Warned.run ⟨hk, fun hact ↦ ?_⟩ hr
    rcases hi with hnone | hchecking
    · rw [hnone] at hact
      cases hact
    · rw [hchecking] at hact
      cases hact
  recorded i r hr hphase := (grounded_of_reachable hs).known i r hr (by rw [hphase]; rfl)
  counted k h := by
    rw [Nat.add_comm]
    exact (counted_of_reachable h).bound

-- A run that dies after its act, and another that acts again and records it.
theorem reachable_redone : ∃ s, effects.Reachable s ∧ s.acts "mail" = 2 ∧ s.died "mail" = 1 := by
  have h₁ : effects.Reachable (Effects.start.setRun 0 ⟨"mail", .checking⟩) :=
    .step (.init rfl) (.start rfl)
  have h₂ : effects.Reachable _ := .step h₁ (.check (i := 0) rfl)
  have h₃ : effects.Reachable _ := .step h₂ (.act (i := 0) rfl)
  have h₄ : effects.Reachable _ := .step h₃ (.crash (i := 0) rfl rfl)
  have h₅ : effects.Reachable (Effects.setRun _ 1 ⟨"mail", .checking⟩) := .step h₄ (.start rfl)
  have h₆ : effects.Reachable _ := .step h₅ (.check (i := 1) rfl)
  have h₇ : effects.Reachable _ := .step h₆ (.act (i := 1) rfl)
  exact ⟨_, h₇, rfl, rfl⟩

theorem at_least_once_redone :
    ∃ s : Effects, s.acts "mail" = 2 ∧ s.died "mail" = 1 ∧ s.AtLeastOnce := by
  obtain ⟨s, hs, hacts, hdied⟩ := reachable_redone
  exact ⟨s, hacts, hdied, at_least_once hs⟩

end Effects

end DurableQueue
