import DurableQueue.Reasoning.Totals
import DurableQueue.Worker.Process

/-!
# The ceiling on a lease

What a round of the heartbeat finds to extend: jobs that wait to be started, which are held without
a deadline, and jobs that have been started no longer ago than any task may run.
-/

open Reasoning

namespace DurableQueue

/-- The longest `max_execution_seconds` of a registered task. -/
def ProcessOptions.longest (o : ProcessOptions) : Int :=
  (o.tasks.map fun task ↦ task.2.getD o.maxExecution).foldr max 0

/-- The deadline that `heartbeat.hold` has set for the run. -/
def RunPhase.deadline : RunPhase → Option Int
  | executing deadline => some deadline
  | failing deadline | settled deadline _ => deadline
  | entered | released _ => none

def ClaimedJob.claims (id : Nat) (job : ClaimedJob) : Int := if job.id = id then 1 else 0

def queuedClaims (id : Nat) (item : Option ClaimedJob) : Int := item.elim 0 (·.claims id)

namespace SlotPc

/-- A claim of the job that has not been started, and is not let go of. -/
def unstarted (id : Nat) : SlotPc → Int
  | taken job | running job _ .entered => job.claims id
  | running job _ (.failing none) | running job _ (.settled none _) => job.claims id
  | _ => 0

/-- A claim of the job that has been started, and is not let go of. -/
def started (id : Nat) : SlotPc → Int
  | running job _ (.executing _) => job.claims id
  | running job _ (.failing (some _)) | running job _ (.settled (some _) _) => job.claims id
  | _ => 0

/-- The slot runs the job and has started it, with this deadline. -/
def Runs (job : ClaimedJob) (deadline : Int) : SlotPc → Prop
  | running job' _ phase => job' = job ∧ phase.deadline = some deadline
  | _ => False

end SlotPc

theorem claims_nonneg (id : Nat) (job : ClaimedJob) : 0 ≤ job.claims id := by
  unfold ClaimedJob.claims
  split <;> decide

theorem queuedClaims_nonneg (id : Nat) (item : Option ClaimedJob) : 0 ≤ queuedClaims id item := by
  cases item with
  | none => exact Int.le_refl 0
  | some job => exact claims_nonneg id job

theorem unstarted_nonneg (id : Nat) (slot : SlotPc) : 0 ≤ slot.unstarted id := by
  unfold SlotPc.unstarted
  split <;> first | exact claims_nonneg id _ | exact Int.le_refl 0

theorem started_nonneg (id : Nat) (slot : SlotPc) : 0 ≤ slot.started id := by
  unfold SlotPc.started
  split <;> first | exact claims_nonneg id _ | exact Int.le_refl 0

theorem claims_self (job : ClaimedJob) : job.claims job.id = 1 := if_pos rfl

theorem claims_of_ne {id : Nat} {job : ClaimedJob} (h : id ≠ job.id) : job.claims id = 0 :=
  if_neg h.symm

theorem started_of_runs {job : ClaimedJob} {deadline : Int} {slot : SlotPc}
    (h : slot.Runs job deadline) : slot.started job.id = 1 := by
  cases slot with
  | running job' pool phase =>
      obtain ⟨rfl, hphase⟩ := h
      cases phase with
      | executing d => exact claims_self job'
      | failing d | settled d exit =>
          cases d with
          | none => cases hphase
          | some d => exact claims_self job'
      | entered | released => cases hphase
  | _ => cases h

theorem ceiling_le_longest {o : ProcessOptions} {task : String} {ceiling : Int}
    (h : o.ceiling task = some ceiling) : ceiling ≤ o.longest := by
  unfold ProcessOptions.ceiling at h
  unfold ProcessOptions.longest
  generalize o.tasks = tasks at h ⊢
  induction tasks with
  | nil => cases h
  | cons entry tasks ih =>
      obtain ⟨name, own⟩ := entry
      rw [List.map_cons, List.foldr_cons]
      rw [List.lookup_cons] at h
      by_cases hname : task == name
      · rw [hname] at h
        obtain rfl := Option.some.inj h
        exact Int.le_max_left _ _
      · rw [Bool.not_eq_true] at hname
        rw [hname] at h
        exact (ih h).trans (Int.le_max_right _ _)

variable {o : ProcessOptions}

namespace Process

/-- The claims of the job that the process holds and has not started. -/
def unstarted (s : Process) (id : Nat) : Int :=
  total (ClaimedJob.claims id) s.pc.inHand + total (queuedClaims id) s.ready +
    total (SlotPc.unstarted id) s.slots

/-- The claims of the job that it holds and has started. -/
def started (s : Process) (id : Nat) : Int := total (SlotPc.started id) s.slots

/-- An entry of the heartbeat's map belongs to a claim that is held.  It is the run's own, unless
the process holds another claim of the job. -/
structure Leased (o : ProcessOptions) (s : Process) : Prop where
  undated : ∀ id, s.deadlines.lookup id = some none → 0 < s.unstarted id
  dated : ∀ id deadline, s.deadlines.lookup id = some (some deadline) → 0 < s.started id ∧
    ∃ start, s.startedAt id = some start ∧ start ≤ s.time ∧ deadline ≤ start + o.longest
  own : ∀ slot ∈ s.slots, ∀ job deadline, slot.Runs job deadline →
    s.deadlines.lookup job.id = none ∨ s.deadlines.lookup job.id = some (some deadline) ∨
      2 ≤ s.unstarted job.id + s.started job.id

variable {s t : Process} {a : ProcessAct} {i : Nat} {old new : SlotPc}

theorem leased_start (o : ProcessOptions) (jobs : Jobs) : (start o jobs).Leased o := by
  refine ⟨nofun, nofun, fun slot hslot job deadline hruns ↦ ?_⟩
  rw [List.eq_of_mem_replicate hslot] at hruns
  cases hruns

theorem nonneg_started (s : Process) (id : Nat) : 0 ≤ s.started id :=
  total_nonneg fun x _ ↦ started_nonneg id x

theorem started_pos {slot : SlotPc} {job : ClaimedJob} {deadline : Int} (hslot : slot ∈ s.slots)
    (hruns : slot.Runs job deadline) : 0 < s.started job.id := by
  refine total_pos_of_mem (fun x _ ↦ started_nonneg job.id x) hslot ?_
  rw [started_of_runs hruns]
  decide

theorem unstarted_pos_of_mem {job : ClaimedJob} (h : job ∈ s.pc.inHand) :
    0 < s.unstarted job.id := by
  have hpos := total_pos_of_mem (fun x _ ↦ claims_nonneg job.id x) h
    (by rw [claims_self]; decide)
  have hready := total_nonneg (l := s.ready) fun x _ ↦ queuedClaims_nonneg job.id x
  have hslots := total_nonneg (l := s.slots) fun x _ ↦ unstarted_nonneg job.id x
  unfold unstarted
  omega

theorem unstarted_pos_of_slot {slot : SlotPc} {id : Nat} (hslot : slot ∈ s.slots)
    (hwaits : 0 < slot.unstarted id) : 0 < s.unstarted id := by
  have hpos := total_pos_of_mem (fun x _ ↦ unstarted_nonneg id x) hslot hwaits
  have hpc := total_nonneg (l := s.pc.inHand) fun x _ ↦ claims_nonneg id x
  have hready := total_nonneg (l := s.ready) fun x _ ↦ queuedClaims_nonneg id x
  unfold unstarted
  omega

-- The claims after one slot has gone on.
theorem unstarted_setSlot (hslot : s.slots[i]? = some old) (new : SlotPc) (id : Nat) :
    (s.setSlot i new).unstarted id = s.unstarted id - old.unstarted id + new.unstarted id := by
  change total (ClaimedJob.claims id) s.pc.inHand + total (queuedClaims id) s.ready +
    total (SlotPc.unstarted id) (s.slots.set i new) = _
  rw [total_set hslot]
  unfold unstarted
  omega

theorem started_setSlot (hslot : s.slots[i]? = some old) (new : SlotPc) (id : Nat) :
    (s.setSlot i new).started id = s.started id - old.started id + new.started id :=
  total_set hslot

/-! ## Kinds of steps -/

-- The map is left alone, and no claim is given up.
theorem Leased.mono (h : s.Leased o) (hdead : t.deadlines = s.deadlines)
    (hstart : t.startedAt = s.startedAt) (htime : s.time ≤ t.time)
    (hunstarted : ∀ id, s.unstarted id ≤ t.unstarted id)
    (hstarted : ∀ id, s.started id ≤ t.started id)
    (hruns : ∀ slot ∈ t.slots, ∀ job deadline, slot.Runs job deadline →
      ∃ slot' ∈ s.slots, slot'.Runs job deadline) : t.Leased o := by
  refine ⟨fun id hid ↦ ?_, fun id deadline hid ↦ ?_, fun slot hslot job deadline hrun ↦ ?_⟩
  · rw [hdead] at hid
    exact (h.undated id hid).trans_le (hunstarted id)
  · rw [hdead] at hid
    obtain ⟨hpos, start, hat, hle, hdeadline⟩ := h.dated id deadline hid
    rw [hstart]
    exact ⟨hpos.trans_le (hstarted id), start, hat, hle.trans htime, hdeadline⟩
  · obtain ⟨slot', hslot', hrun'⟩ := hruns slot hslot job deadline hrun
    rw [hdead]
    refine (h.own slot' hslot' job deadline hrun').imp_right (Or.imp_right fun htwo ↦ ?_)
    exact htwo.trans (Int.add_le_add (hunstarted job.id) (hstarted job.id))

-- The main thread and the queue pass claims on.
theorem Leased.pass (h : s.Leased o) (hdead : t.deadlines = s.deadlines)
    (hstart : t.startedAt = s.startedAt) (htime : s.time ≤ t.time) (hslots : t.slots = s.slots)
    (hclaims : ∀ id,
      total (ClaimedJob.claims id) s.pc.inHand + total (queuedClaims id) s.ready ≤
        total (ClaimedJob.claims id) t.pc.inHand + total (queuedClaims id) t.ready) :
    t.Leased o := by
  refine h.mono hdead hstart htime (fun id ↦ ?_) (fun id ↦ ?_) fun slot hslot job deadline hrun ↦ ?_
  · unfold unstarted
    rw [hslots]
    exact Int.add_le_add_right (hclaims id) _
  · unfold started
    rw [hslots]
  · rw [hslots] at hslot
    exact ⟨slot, hslot, hrun⟩

theorem Leased.of_same (h : s.Leased o) (hdead : t.deadlines = s.deadlines)
    (hstart : t.startedAt = s.startedAt) (htime : s.time ≤ t.time) (hslots : t.slots = s.slots)
    (hpc : t.pc.inHand = s.pc.inHand) (hready : t.ready = s.ready) : t.Leased o := by
  refine h.pass hdead hstart htime hslots fun id ↦ ?_
  rw [hpc, hready]

-- A slot that keeps its claim, and the deadline that it has.
theorem Leased.setSlot (h : s.Leased o) (hslot : s.slots[i]? = some old)
    (hunstarted : ∀ id, new.unstarted id = old.unstarted id)
    (hstarted : ∀ id, new.started id = old.started id)
    (hruns : ∀ job deadline, new.Runs job deadline → old.Runs job deadline) :
    (s.setSlot i new).Leased o := by
  refine h.mono rfl rfl (Int.le_refl _) (fun id ↦ ?_) (fun id ↦ ?_)
    fun slot hmem job deadline hrun ↦ ?_
  · rw [unstarted_setSlot hslot, hunstarted]
    omega
  · rw [started_setSlot hslot, hstarted]
    omega
  · rcases List.mem_or_eq_of_mem_set hmem with hold | rfl
    · exact ⟨slot, hold, hrun⟩
    · exact ⟨old, List.mem_of_getElem? hslot, hruns job deadline hrun⟩

theorem Leased.take (h : s.Leased o) {job : ClaimedJob} {rest : List (Option ClaimedJob)}
    (hslot : s.slots[i]? = some .waiting) (hready : s.ready = some job :: rest) :
    ({ s with ready := rest }.setSlot i (.taken job)).Leased o := by
  refine h.mono rfl rfl (Int.le_refl _) (fun id ↦ ?_) (fun id ↦ ?_)
    fun slot hmem job' deadline hrun ↦ ?_
  · change s.unstarted id ≤ total (ClaimedJob.claims id) s.pc.inHand +
      total (queuedClaims id) rest + total (SlotPc.unstarted id) (s.slots.set i (.taken job))
    rw [total_set hslot]
    unfold unstarted
    rw [hready, total_cons]
    simp only [queuedClaims, SlotPc.unstarted, Option.elim]
    omega
  · change s.started id ≤ total (SlotPc.started id) (s.slots.set i (.taken job))
    rw [total_set hslot]
    unfold started
    simp only [SlotPc.started]
    omega
  · rcases List.mem_or_eq_of_mem_set hmem with hold | rfl
    · exact ⟨slot, hold, hrun⟩
    · cases hrun

theorem Leased.hold (h : s.Leased o) {batch : List ClaimedJob} (hpc : s.pc = .hold batch) :
    Leased o
      { s with
        deadlines := s.deadlines.hold (batch.map (·.id)) none s.time
        pc := .openPool batch } := by
  have hun : ∀ id, s.unstarted id =
      total (ClaimedJob.claims id) batch + total (queuedClaims id) s.ready +
        total (SlotPc.unstarted id) s.slots := by
    intro id
    unfold unstarted
    rw [hpc]
    rfl
  have hin : ∀ id ∈ batch.map (·.id), 0 < s.unstarted id := by
    intro id hid
    obtain ⟨job, hjob, rfl⟩ := List.mem_map.mp hid
    exact unstarted_pos_of_mem (hpc ▸ hjob)
  refine ⟨fun id hid ↦ ?_, fun id deadline hid ↦ ?_, fun slot hslot job deadline hrun ↦ ?_⟩
  · have hpos : 0 < s.unstarted id := by
      rw [Deadlines.lookup_hold] at hid
      split at hid
      · exact hin id ‹_›
      · exact h.undated id hid
    rw [hun] at hpos
    exact hpos
  · rw [Deadlines.lookup_hold] at hid
    split at hid
    · cases hid
    · exact h.dated id deadline hid
  · dsimp only
    rw [Deadlines.lookup_hold]
    split
    · have hpos := hin job.id ‹_›
      have hstarted := started_pos hslot hrun
      rw [hun] at hpos
      change 0 < total (SlotPc.started job.id) s.slots at hstarted
      refine Or.inr (Or.inr ?_)
      change 2 ≤ total (ClaimedJob.claims job.id) batch + total (queuedClaims job.id) s.ready +
        total (SlotPc.unstarted job.id) s.slots + total (SlotPc.started job.id) s.slots
      omega
    · have hown := h.own slot hslot job deadline hrun
      rw [hun] at hown
      exact hown

theorem Leased.start (h : s.Leased o) {job : ClaimedJob} {pool : Option Nat} {ceiling : Int}
    (hslot : s.slots[i]? = some (.running job pool .entered))
    (htask : o.ceiling job.task = some ceiling) :
    Leased o
      ({ s with
          deadlines := s.deadlines.hold [job.id] (some ceiling) s.time
          startedAt := Function.update s.startedAt job.id (some s.time) }.setSlot i
        (.running job pool (.executing (s.time + ceiling)))) := by
  generalize ht : Process.setSlot _ i (.running job pool (.executing (s.time + ceiling))) = t
  have hun : ∀ id, t.unstarted id = s.unstarted id - job.claims id := by
    intro id
    rw [← ht]
    refine (unstarted_setSlot hslot (.running job pool (.executing _)) id).trans ?_
    simp only [SlotPc.unstarted]
    omega
  have hst : ∀ id, t.started id = s.started id + job.claims id := by
    intro id
    rw [← ht]
    refine (started_setSlot hslot (.running job pool (.executing _)) id).trans ?_
    simp only [SlotPc.started]
    omega
  have hlookup : ∀ id, t.deadlines.lookup id =
      if id ∈ [job.id] then some (some (s.time + ceiling)) else s.deadlines.lookup id := by
    intro id
    rw [← ht]
    exact Deadlines.lookup_hold s.deadlines [job.id] (some ceiling) s.time id
  refine ⟨fun id hid ↦ ?_, fun id deadline hid ↦ ?_, fun slot hmem job' deadline hrun ↦ ?_⟩
  · rw [hlookup] at hid
    split at hid
    · cases hid
    · rw [hun, claims_of_ne fun heq ↦ ‹id ∉ [job.id]› (List.mem_singleton.mpr heq), Int.sub_zero]
      exact h.undated id hid
  · rw [hlookup] at hid
    rw [hst, ← ht]
    dsimp only [Process.setSlot]
    split at hid
    · have hself := claims_self job
      obtain rfl := List.mem_singleton.mp ‹id ∈ [job.id]›
      cases hid
      have hpos := nonneg_started s job.id
      have hle := ceiling_le_longest htask
      exact ⟨by omega, s.time, Function.update_self .., Int.le_refl _, by omega⟩
    · have hne := fun heq ↦ ‹id ∉ [job.id]› (List.mem_singleton.mpr heq)
      rw [claims_of_ne hne, Int.add_zero, Function.update_of_ne hne]
      exact h.dated id deadline hid
  · have hmem' : slot = .running job pool (.executing (s.time + ceiling)) ∨ slot ∈ s.slots := by
      rw [← ht] at hmem
      exact (List.mem_or_eq_of_mem_set hmem).symm
    rw [hlookup, hun, hst]
    rcases hmem' with rfl | hold
    · obtain ⟨rfl, hd⟩ := hrun
      exact Or.inr (Or.inl ((if_pos (List.mem_singleton_self _)).trans (congrArg some hd)))
    · by_cases hid : job'.id = job.id
      -- one claim of the job that has been started, and this one
      · have hstarted := started_pos hold hrun
        have hentered : 0 < (SlotPc.running job pool .entered).unstarted job.id := by
          change 0 < job.claims job.id
          rw [claims_self]
          decide
        have hwaits := unstarted_pos_of_slot (List.mem_of_getElem? hslot) hentered
        refine Or.inr (Or.inr ?_)
        rw [hid] at hstarted ⊢
        omega
      · rw [if_neg fun hin ↦ hid (List.mem_singleton.mp hin), claims_of_ne hid, Int.sub_zero,
          Int.add_zero]
        exact h.own slot hold job' deadline hrun

-- Entries are dropped, and the claims of no other job are given up.
theorem Leased.release (h : s.Leased o) (ids : List Nat)
    (hdead : t.deadlines = s.deadlines.release ids) (hstart : t.startedAt = s.startedAt)
    (htime : t.time = s.time)
    (hclaims : ∀ id, id ∉ ids → t.unstarted id = s.unstarted id ∧ t.started id = s.started id)
    (hruns : ∀ slot ∈ t.slots, ∀ job deadline, slot.Runs job deadline → slot ∈ s.slots) :
    t.Leased o := by
  refine ⟨fun id hid ↦ ?_, fun id deadline hid ↦ ?_, fun slot hmem job deadline hrun ↦ ?_⟩
  · rw [hdead, Deadlines.lookup_release] at hid
    split at hid
    · cases hid
    · rw [(hclaims id ‹_›).1]
      exact h.undated id hid
  · rw [hdead, Deadlines.lookup_release] at hid
    split at hid
    · cases hid
    · rw [(hclaims id ‹_›).2, hstart, htime]
      exact h.dated id deadline hid
  · rw [hdead, Deadlines.lookup_release]
    split
    · exact Or.inl rfl
    · rw [(hclaims job.id ‹_›).1, (hclaims job.id ‹_›).2]
      exact h.own slot (hruns slot hmem job deadline hrun) job deadline hrun

theorem Leased.settle (h : s.Leased o) {job : ClaimedJob} {pool : Option Nat}
    {deadline : Option Int} {exit : Exit}
    (hslot : s.slots[i]? = some (.running job pool (.settled deadline exit))) :
    Leased o
      ({ s with deadlines := s.deadlines.release [job.id] }.setSlot i
        (.running job pool (.released exit))) := by
  refine h.release [job.id] rfl rfl rfl (fun id hid ↦ ?_) fun slot hmem job' d hrun ↦ ?_
  · have hne : job.claims id = 0 := claims_of_ne fun heq ↦ hid (List.mem_singleton.mpr heq)
    constructor
    · refine (unstarted_setSlot hslot (.running job pool (.released exit)) id).trans ?_
      cases deadline <;> simp only [SlotPc.unstarted, hne] <;> omega
    · refine (started_setSlot hslot (.running job pool (.released exit)) id).trans ?_
      cases deadline <;> simp only [SlotPc.started, hne] <;> omega
  · rcases List.mem_or_eq_of_mem_set hmem with hold | rfl
    · exact hold
    · cases hrun.2

theorem Leased.letGo (h : s.Leased o) {unstarted : List ClaimedJob}
    (hpc : s.pc = .letGo unstarted) :
    Leased o
      { s with
        deadlines := s.deadlines.release (unstarted.map (·.id))
        pc := .handBack unstarted } := by
  refine h.release (unstarted.map (·.id)) rfl rfl rfl (fun id hid ↦ ⟨?_, rfl⟩)
    fun slot hmem _ _ _ ↦ hmem
  have hnone : total (ClaimedJob.claims id) unstarted = 0 := by
    refine (total_eq_zero_iff fun x _ ↦ claims_nonneg id x).mpr fun job hjob ↦ claims_of_ne ?_
    rintro rfl
    exact hid (List.mem_map_of_mem hjob)
  unfold Process.unstarted
  rw [hpc]
  change total (ClaimedJob.claims id) [] + _ + _ = total (ClaimedJob.claims id) unstarted + _ + _
  rw [hnone]
  rfl

theorem inHand_of_move {pc pc' : MainPc} (h : MainMove o s pc pc') : pc'.inHand = pc.inHand := by
  cases h with
  | due => split <;> rfl
  | loseConnection hpc =>
      cases pc <;> first | rfl | cases hpc
  | _ => rfl

theorem Leased.step (h : s.Leased o) (ha : ProcessStep o s a t) : t.Leased o := by
  cases ha with
  | main hm => exact h.of_same rfl rfl (Int.le_refl _) rfl (inHand_of_move hm) rfl
  | deadLetter hpc | recover hpc | claimedUnseen hpc | openPool hpc | count hpc | putAll hpc
  | close hpc | forget hpc =>
      refine h.of_same rfl rfl (Int.le_refl _) rfl ?_ rfl
      rw [hpc]
      rfl
  | @claimed ctx room jobs rows hpc hclaim =>
      refine h.pass rfl rfl (Int.le_refl _) rfl fun id ↦ Int.add_le_add_right ?_ _
      rw [hpc]
      exact total_nonneg fun x _ ↦ claims_nonneg id x
  | hold hpc => exact h.hold hpc
  | @put job batch hpc =>
      refine h.pass rfl rfl (Int.le_refl _) rfl fun id ↦ ?_
      rw [hpc]
      simp only [MainPc.inHand, total_cons, total_append, total_nil, queuedClaims, Option.elim]
      omega
  | raise => exact h.of_same rfl rfl (Int.le_refl _) rfl rfl rfl
  | @drain unstarted job rest hpc hready =>
      refine h.pass rfl rfl (Int.le_refl _) rfl fun id ↦ ?_
      rw [hpc, hready]
      simp only [MainPc.inHand, total_cons, total_append, total_nil, queuedClaims, Option.elim]
      omega
  | letGo hpc => exact h.letGo hpc
  | @handBack unstarted done ctx hpc =>
      cases done <;>
      · refine h.of_same rfl rfl (Int.le_refl _) rfl ?_ rfl
        rw [hpc]
        rfl
  | sentinels hpc =>
      refine h.pass rfl rfl (Int.le_refl _) rfl fun id ↦ ?_
      rw [hpc]
      simp only [MainPc.inHand, total_append, total_nil, total_replicate, queuedClaims, Option.elim]
      omega
  | take hslot hready => exact h.take hslot hready
  | enter hslot => exact h.setSlot hslot (fun _ ↦ rfl) (fun _ ↦ rfl) fun _ _ hrun ↦ nomatch hrun.2
  | start hslot htask => exact h.start hslot htask
  | unregistered hslot =>
      exact h.setSlot hslot (fun _ ↦ rfl) (fun _ ↦ rfl) fun _ _ hrun ↦ nomatch hrun.2
  | @raises i job pool deadline ordinary hslot =>
      cases ordinary <;>
        exact h.setSlot hslot (fun _ ↦ rfl) (fun _ ↦ rfl) fun _ _ hrun ↦ hrun
  | swallow hslot => exact h.setSlot hslot (fun _ ↦ rfl) (fun _ ↦ rfl) fun _ _ hrun ↦ hrun
  | @complete i job pool deadline ctx seen hslot =>
      have hcall : (s.call ⟨ctx, .markSucceeded job.id o.workerId⟩).Leased o :=
        h.of_same rfl rfl (Int.le_refl _) rfl rfl rfl
      cases seen <;>
        exact hcall.setSlot hslot (fun _ ↦ rfl) (fun _ ↦ rfl) fun _ _ hrun ↦ hrun
  | @fail i job pool deadline ctx error permanent maxAttempts draw seen hslot =>
      have hcall : (s.call ⟨ctx, .markFailed job.id o.workerId error permanent maxAttempts
          draw⟩).Leased o := h.of_same rfl rfl (Int.le_refl _) rfl rfl rfl
      cases deadline <;>
        exact hcall.setSlot hslot (fun _ ↦ rfl) (fun _ ↦ rfl) fun _ _ hrun ↦ hrun
  | @unrecorded i job pool deadline ordinary hslot =>
      cases deadline <;>
        exact h.setSlot hslot (fun _ ↦ rfl) (fun _ ↦ rfl) fun _ _ hrun ↦ hrun
  | release hslot => exact h.settle hslot
  | @finish i job pool exit hslot =>
      have hcount : Leased o { s with outstanding := s.outstanding - 1 } :=
        h.of_same rfl rfl (Int.le_refl _) rfl rfl rfl
      exact hcount.setSlot hslot (fun _ ↦ rfl) (fun _ ↦ rfl) fun _ _ hrun ↦ hrun.elim
  | @loop i exit hslot =>
      split <;> exact h.setSlot hslot (fun _ ↦ rfl) (fun _ ↦ rfl) fun _ _ hrun ↦ hrun
  | @sentinel i rest hslot hready =>
      have hrest : Leased o { s with ready := rest } := by
        refine h.pass rfl rfl (Int.le_refl _) rfl fun id ↦ ?_
        rw [hready, total_cons]
        exact Int.add_le_add_left (Int.le_of_eq (Int.zero_add _)) _
      exact hrest.setSlot hslot (fun _ ↦ rfl) (fun _ ↦ rfl) fun _ _ hrun ↦ hrun
  | @leave i hslot =>
      have hcount : Leased o { s with outstanding := s.outstanding - 1 } :=
        h.of_same rfl rfl (Int.le_refl _) rfl rfl rfl
      exact hcount.setSlot hslot (fun _ ↦ rfl) (fun _ ↦ rfl) fun _ _ hrun ↦ hrun
  | @beat ctx done => cases done <;> exact h.of_same rfl rfl (Int.le_refl _) rfl rfl rfl
  | look | stopBeat | setStop | call => exact h.of_same rfl rfl (Int.le_refl _) rfl rfl rfl
  | tick htime => exact h.of_same rfl rfl htime rfl rfl rfl

theorem leased_of_reachable (h : (process o).Reachable s) : s.Leased o := by
  apply h.invariant
  · rintro s ⟨jobs, rfl⟩
    exact leased_start o jobs
  · exact fun s a t hs ha ↦ hs.step ha

/-- What a round of the heartbeat finds to extend: jobs that the process has claimed and not
started, which it holds without a deadline, and jobs that it has started no longer ago than the
longest `max_execution_seconds`.  A job whose task has outlived its own is not among them while
that run is going on, if the process holds no other claim of it. -/
theorem ceiling_ends_lease (h : (process o).Reachable s) :
    (∀ id ∈ s.deadlines.live s.time, 0 < s.unstarted id ∨ 0 < s.started id ∧
      ∃ start, s.startedAt id = some start ∧ start ≤ s.time ∧ s.time < start + o.longest) ∧
    ∀ (i : Nat) (job : ClaimedJob) (pool : Option Nat) (deadline : Int),
      s.slots[i]? = some (.running job pool (.executing deadline)) → deadline ≤ s.time →
        s.unstarted job.id + s.started job.id = 1 → job.id ∉ s.deadlines.live s.time := by
  have hleased := leased_of_reachable h
  constructor
  · intro id hid
    obtain ⟨entry, hentry, hlive⟩ := Deadlines.lookup_of_mem_live hid
    cases entry with
    | none => exact Or.inl (hleased.undated id hentry)
    | some deadline =>
        obtain ⟨hpos, start, hat, hle, hdeadline⟩ := hleased.dated id deadline hentry
        have hnow := hlive deadline rfl
        exact Or.inr ⟨hpos, start, hat, hle, by omega⟩
  · intro i job pool deadline hslot hpast hone hid
    obtain ⟨entry, hentry, hlive⟩ := Deadlines.lookup_of_mem_live hid
    have hmem := List.mem_of_getElem? hslot
    have hruns : (SlotPc.running job pool (.executing deadline)).Runs job deadline := ⟨rfl, rfl⟩
    have hstarted := started_pos hmem hruns
    cases entry with
    | none =>
        have hwaiting := hleased.undated job.id hentry
        omega
    | some d =>
        have hnow := hlive d rfl
        rcases hleased.own _ hmem job deadline hruns with hnone | hown | htwo
        · cases hentry.symm.trans hnone
        · obtain rfl := Option.some.inj (Option.some.inj (hentry.symm.trans hown))
          omega
        · omega

/-- The only slot has been hung on the first of two claimed jobs for a second more than it may. -/
theorem ceiling_ends_lease_hung : ∃ s : Process, (process single).Reachable s ∧
    s.time = seconds 301 ∧
    s.slots = [.running ⟨1, "t", ""⟩ (some 0) (.executing (seconds 300))] ∧
    s.deadlines.live s.time = [2] ∧ 0 < s.unstarted 2 := by
  have hrun := (twoClaimed_run.reachable (.init ⟨_, rfl⟩)).step (.take (i := 0) rfl rfl)
  have hrun := (hrun.step (.enter (i := 0) rfl)).step (.start (i := 0) rfl rfl)
  have hrun := hrun.step (@ProcessStep.tick single _ (seconds 301) (by decide))
  obtain ⟨hlive, hown⟩ := ceiling_ends_lease hrun
  have hgone := hown 0 _ _ _ rfl (by decide) (by decide)
  exact ⟨_, hrun, rfl, rfl, rfl, (hlive 2 (by decide)).resolve_right (by decide)⟩

/-- No bound depends on the configuration alone: the lease of the second job, which waits for the
slot, is extended however long ago it was claimed. -/
theorem buffered_held_forever : ¬ ∃ bound : Int, ∀ (s t : Process) (id : Nat) (claimed now : Int)
    (x : Job), (process single).Reachable s → s.claimedAt id = some claimed →
    ProcessStep single s (.beat (.alone now) true) t → s.jobs.row id = some x →
    x.lockedUntil ≠ some (now + seconds 30) →
    t.jobs.row id = some { x with lockedUntil := some (now + seconds 30) } →
    s.time ≤ claimed + bound := by
  rintro ⟨bound, hbound⟩
  have hrun := (twoClaimed_run.reachable (.init ⟨_, rfl⟩)).step (.take (i := 0) rfl rfl)
  have hrun := (hrun.step (.enter (i := 0) rfl)).step (.start (i := 0) rfl rfl)
  have hrun := hrun.step
    (@ProcessStep.tick single _ (max bound 0 + 1) (by change (0 : Int) ≤ _; omega))
  have hlook := hrun.step (.look rfl rfl)
  have hentry : (twoClaimed.deadlines.hold [1] (some (seconds 300)) 0).lookup 2 = some none := rfl
  have hin := @Deadlines.mem_live _ (max bound 0 + 1) _ _ hentry nofun
  have hlocked : some (seconds 30) ≠ some (max bound 0 + 1 + seconds 30) := by
    intro heq
    have hequal := Option.some.inj heq
    omega
  have hle := hbound _ _ 2 0 (max bound 0 + 1) _ hlook rfl (.beat rfl) rfl hlocked
    (Jobs.row_updateHeld_of_heldBy rfl hin (by decide) _)
  change max bound 0 + 1 ≤ 0 + bound at hle
  omega

end Process

end DurableQueue
