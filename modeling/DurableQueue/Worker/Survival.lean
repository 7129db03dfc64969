import DurableQueue.Reasoning.Totals
import DurableQueue.Worker.Process

/-!
# Slots that survive

Until the worker is told to stop, each `BaseException` outside `Exception` that reaches a slot costs
it one, and nothing else does.
-/

open Reasoning

namespace DurableQueue

/-- What leaves `run_job` lets the slot go round again. -/
def Exit.survived : Exit → Int
  | raised false => 0
  | _ => 1

theorem survived_of_ne {exit : Exit} (h : exit ≠ .raised false) : exit.survived = 1 := by
  unfold Exit.survived
  split
  · exact absurd rfl h
  · rfl

/-- A slot in its loop, which it will go round again. -/
def SlotPc.looping : SlotPc → Int
  | running _ _ (.settled _ exit) | running _ _ (.released exit) | finishing exit => exit.survived
  | leaving | ended => 0
  | _ => 1

theorem survived_le_one (exit : Exit) : exit.survived ≤ 1 := by
  unfold Exit.survived
  split <;> decide

theorem looping_le_one (slot : SlotPc) : slot.looping ≤ 1 := by
  unfold SlotPc.looping
  split
  · exact survived_le_one _
  · exact survived_le_one _
  · exact survived_le_one _
  · decide
  · decide
  · decide

namespace ProcessAct

/-- No `BaseException` outside `Exception` comes out of a task, or of the `str` of what it
raised. -/
def ordinary : ProcessAct → Bool
  | raises _ ordinary | unrecorded _ ordinary => ordinary
  | _ => true

def fatal (a : ProcessAct) : Int := if a.ordinary then 0 else 1

end ProcessAct

/-- The loop has been left because of `stop`. -/
def MainPc.stopping : MainPc → Bool
  | drain _ | letGo _ | handBack _ | sentinels | join | returned => true
  | _ => false

variable {o : ProcessOptions}

namespace Process

/-- The number of slots that are still looping. -/
def slotsLooping (s : Process) : Int := total SlotPc.looping s.slots

variable {s t : Process} {a : ProcessAct} {i : Nat} {old new : SlotPc}

/-- Nothing has told a slot to leave. -/
structure Unstopped (s : Process) : Prop where
  pc : s.pc.stopping = false
  ready : none ∉ s.ready
  slots : SlotPc.leaving ∉ s.slots

theorem Unstopped.setSlot (h : s.Unstopped) (hnew : new ≠ .leaving) :
    (s.setSlot i new).Unstopped := by
  exact ⟨h.pc, h.ready, noLeaving_set h.slots hnew⟩

-- `stop` is never cleared.
theorem stop_of_step (ha : ProcessStep o s a t) (ht : t.stop = false) : s.stop = false := by
  cases ha with
  | setStop => cases ht
  | @handBack unstarted done => cases done <;> exact ht
  | @beat ctx done => cases done <;> exact ht
  | _ => exact ht

theorem stopping_of_move {pc pc' : MainPc} (h : MainMove o s pc pc') (hpc : pc.stopping = false)
    (hstop : s.stop = false) : pc'.stopping = false := by
  cases h with
  | stop htrue | stopAgain htrue => cases hstop.symm.trans htrue
  | due => split <;> rfl
  | drained | joined => cases hpc
  | _ => rfl

theorem Unstopped.step (h : s.Unstopped) (ha : ProcessStep o s a t) (ht : t.stop = false) :
    t.Unstopped := by
  have hpc := h.pc
  cases ha with
  | main hm => exact ⟨stopping_of_move hm h.pc ht, h.ready, h.slots⟩
  | deadLetter | recover | claimedUnseen | hold | openPool | count | putAll | close | forget
  | raise => exact ⟨rfl, h.ready, h.slots⟩
  | claimed => exact ⟨by dsimp only; split <;> rfl, h.ready, h.slots⟩
  | put =>
      refine ⟨rfl, fun hmem ↦ ?_, h.slots⟩
      rcases List.mem_append.mp hmem with hold | hnew
      · exact h.ready hold
      · cases List.mem_singleton.mp hnew
  | drain hat | letGo hat | handBack hat | sentinels hat =>
      rw [hat] at hpc
      cases hpc
  | take hslot hready =>
      refine Unstopped.setSlot ⟨h.pc, fun hmem ↦ ?_, h.slots⟩ nofun
      exact h.ready (hready ▸ List.mem_cons_of_mem _ hmem)
  | enter | start | unregistered | raises | swallow | complete | fail | unrecorded | release
  | finish => exact Unstopped.setSlot ⟨h.pc, h.ready, h.slots⟩ nofun
  | loop => exact h.setSlot (by split <;> exact nofun)
  | sentinel hslot hready => exact absurd (hready ▸ List.mem_cons_self) h.ready
  | leave hslot => exact absurd (List.mem_of_getElem? hslot) h.slots
  | @beat ctx done => cases done <;> exact ⟨h.pc, h.ready, h.slots⟩
  | look | stopBeat | setStop | tick | call => exact ⟨h.pc, h.ready, h.slots⟩

theorem unstopped_of_reachable (h : (process o).Reachable s) (hs : s.stop = false) :
    s.Unstopped := by
  have hinv : s.stop = false → s.Unstopped := by
    clear hs
    apply h.invariant
    · rintro s ⟨jobs, rfl⟩ -
      exact ⟨rfl, List.not_mem_nil, fun hmem ↦ nomatch List.eq_of_mem_replicate hmem⟩
    · intro s a t hs ha ht
      exact (hs (stop_of_step ha ht)).step ha ht
  exact hinv hs

theorem slotsLooping_set (hslot : s.slots[i]? = some old) (ht : t.slots = s.slots.set i new)
    {cost : Int} (hcost : new.looping + cost = old.looping) :
    t.slotsLooping + cost = s.slotsLooping := by
  unfold slotsLooping
  rw [ht, total_set hslot]
  omega

-- Only an exception that no `except Exception` catches costs a slot.
theorem slotsLooping_step (h : s.Unstopped) (ha : ProcessStep o s a t) :
    t.slotsLooping + a.fatal = s.slotsLooping := by
  cases ha with
  | take hslot | enter hslot | start hslot | unregistered hslot | swallow hslot =>
      exact slotsLooping_set hslot rfl rfl
  | release hslot | finish hslot =>
      refine slotsLooping_set hslot rfl ?_
      exact Int.add_zero _
  | @raises i job pool deadline ordinary hslot | @unrecorded i job pool deadline ordinary hslot =>
      cases ordinary <;> exact slotsLooping_set hslot rfl rfl
  | @complete i job pool deadline ctx seen hslot
  | @fail i job pool deadline ctx error permanent maxAttempts draw seen hslot =>
      cases seen <;> exact slotsLooping_set hslot rfl rfl
  | @loop i exit hslot =>
      refine slotsLooping_set hslot rfl ?_
      split
      · rename_i hexit
        rw [hexit]
        rfl
      · rename_i hexit
        exact (survived_of_ne hexit).symm
  | sentinel hslot hready => exact absurd (hready ▸ List.mem_cons_self) h.ready
  | leave hslot => exact absurd (List.mem_of_getElem? hslot) h.slots
  | @handBack unstarted done | @beat ctx done => cases done <;> exact Int.add_zero _
  | _ => exact Int.add_zero _

theorem stop_of_run {as : List ProcessAct} (h : (process o).Run s as t) (ht : t.stop = false) :
    s.stop = false := by
  induction h with
  | nil => exact ht
  | cons ha _ ih => exact stop_of_step ha (ih ht)

-- Each step of a run takes what it costs from the slots that are left.
theorem slotsLooping_run {as : List ProcessAct} (hs : (process o).Reachable s)
    (h : (process o).Run s as t) (ht : t.stop = false) :
    t.slotsLooping + total ProcessAct.fatal as = s.slotsLooping := by
  induction h with
  | nil => exact Int.add_zero _
  | cons ha hrun ih =>
      have hstep := slotsLooping_step
        (unstopped_of_reachable hs (stop_of_step ha (stop_of_run hrun ht))) ha
      have hrest := ih (hs.step ha) ht
      rw [total_cons]
      omega

theorem fatal_nonneg (a : ProcessAct) : 0 ≤ a.fatal := by
  unfold ProcessAct.fatal
  split <;> omega

theorem total_fatal_eq_zero_iff {as : List ProcessAct} :
    total ProcessAct.fatal as = 0 ↔ ∀ a ∈ as, a.ordinary = true := by
  rw [total_eq_zero_iff fun a _ ↦ fatal_nonneg a]
  refine forall₂_congr fun a _ ↦ ?_
  unfold ProcessAct.fatal
  cases a.ordinary <;> decide

theorem slotsLooping_start (jobs : Jobs) : (start o jobs).slotsLooping = o.concurrency := by
  unfold slotsLooping start
  rw [total_replicate]
  exact Int.mul_one _

/-- Before the worker is told to stop: all of its slots are still looping, and so one is left for
each job in the queue, exactly if no `BaseException` outside `Exception` has come out of a task. -/
theorem slots_survive_iff (hslots : 1 ≤ o.concurrency) {jobs : Jobs} {as : List ProcessAct}
    (h : (process o).Run (start o jobs) as s) (hs : s.stop = false) :
    (s.slotsLooping = o.concurrency ∧
      ∀ job, some job ∈ s.ready → ∃ slot ∈ s.slots, slot.looping = 1) ↔
    ∀ a ∈ as, a.ordinary = true := by
  have hrun := slotsLooping_run (.init ⟨jobs, rfl⟩) h hs
  rw [slotsLooping_start] at hrun
  rw [← total_fatal_eq_zero_iff]
  constructor
  · rintro ⟨hall, -⟩
    omega
  · intro hzero
    have hall : s.slotsLooping = o.concurrency := by omega
    refine ⟨hall, fun job _ ↦ ?_⟩
    obtain ⟨slot, hslot, hpos⟩ := exists_of_total_pos (f := SlotPc.looping) (l := s.slots)
      (by unfold slotsLooping at hall; omega)
    exact ⟨slot, hslot, Int.le_antisymm (looping_le_one slot) hpos⟩

/-- The first of two claimed jobs raises an `Exception` that cannot be recorded. -/
theorem slots_survive_unrecorded : ∃ s : Process,
    (process single).Run (start single .empty)
      (claimTwo ++ [.take 0, .enter 0, .start 0, .raises 0 true, .unrecorded 0 true, .release 0,
        .finish 0, .loop 0]) s ∧
    s.slotsLooping = 1 ∧ some ⟨2, "t", ""⟩ ∈ s.ready ∧ ∃ slot ∈ s.slots, slot.looping = 1 := by
  have hrun : (process single).Run (start single .empty)
      (claimTwo ++ [.take 0, .enter 0, .start 0, .raises 0 true, .unrecorded 0 true, .release 0,
        .finish 0, .loop 0]) _ :=
    twoClaimed_run.trans <| .cons (.take rfl rfl) <| .cons (.enter rfl) <|
      .cons (.start rfl rfl) <| .cons (@ProcessStep.raises single _ 0 _ _ _ true rfl) <|
      .cons (@ProcessStep.unrecorded single _ 0 _ _ _ true rfl) <| .cons (.release rfl) <|
      .cons (.finish rfl) <| .cons (.loop rfl) <| .nil _
  have hmain := (slots_survive_iff (by decide) hrun rfl).mpr (by decide)
  exact ⟨_, hrun, hmain.1, List.mem_cons_self, hmain.2 _ List.mem_cons_self⟩

/-- It raises a `SystemExit`: the worker, which nobody has told to stop, keeps the other one leased
and has no slot to run it. -/
theorem slot_lost : ∃ s : Process, (process single).Reachable s ∧ s.stop = false ∧
    s.slots = [.ended] ∧ s.ready = [some ⟨2, "t", ""⟩] ∧ s.deadlines.lookup 2 = some none ∧
    (s.jobs.row 2).map Job.status = some .running := by
  have hrun := (twoClaimed_run.reachable (.init ⟨_, rfl⟩)).step (.take (i := 0) rfl rfl)
  have hrun := (hrun.step (.enter (i := 0) rfl)).step (.start (i := 0) rfl rfl)
  have hrun := hrun.step (@ProcessStep.raises single _ 0 _ _ _ false rfl)
  have hrun := (hrun.step (.release (i := 0) rfl)).step (.finish (i := 0) rfl)
  exact ⟨_, hrun.step (.loop (i := 0) rfl), rfl, rfl, rfl, rfl, rfl⟩

end Process

end DurableQueue
