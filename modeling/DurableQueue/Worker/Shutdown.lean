import DurableQueue.Reasoning.Handover
import DurableQueue.Worker.Accounting
import DurableQueue.Worker.Survival
import Mathlib.Data.List.ReduceOption

/-!
# Shutting down

The graceful end of `run_worker`: what has been claimed and not taken by a slot is drained from the
queue and handed back, and then there is a sentinel for each slot that is still there.
-/

open Reasoning Reasoning.Handover

namespace DurableQueue

namespace MainPc

/-- The sentinels are not in the queue yet. -/
def unsignalled : MainPc → Bool
  | join | returned | raised _ => false
  | _ => true

/-- The sentinels have been put. -/
def signalled : MainPc → Bool
  | join | returned => true
  | _ => false

/-- The drain loop has found the queue empty. -/
def drained : MainPc → Bool
  | letGo _ | handBack _ | sentinels | join | returned => true
  | _ => false

/-- The list `unstarted`, which the loop leaves to be filled. -/
def unstarted : MainPc → Option (List ClaimedJob)
  | drain unstarted | letGo unstarted | handBack unstarted => some unstarted
  | sentinels | join | returned | raised _ => none
  | _ => some []

/-- Past the point at which the loop or what follows it touches the table. -/
def handedBack : MainPc → Bool
  | sentinels | join | returned | raised _ => true
  | _ => false

/-- A step of the main thread that leaves the queue alone. -/
structure Follows (ready : List (Option ClaimedJob)) (before after : MainPc) : Prop where
  unsignalled : after.unsignalled = true → before.unsignalled = true
  signalled : after.signalled = true → before.signalled = true
  drained : after.drained = true → before.drained = true ∨ ready = []
  unstarted : ∀ u, after.unstarted = some u → before.unstarted = some u

theorem Follows.refl (ready : List (Option ClaimedJob)) (pc : MainPc) : Follows ready pc pc :=
  ⟨id, id, Or.inl, fun _ hu ↦ hu⟩

theorem Follows.of_looping {ready : List (Option ClaimedJob)} {before after : MainPc}
    (hbefore : before.looping = true) (hafter : after.looping = true) :
    Follows ready before after := by
  have hloop {pc : MainPc} (h : pc.looping = true) :
      pc.unsignalled = true ∧ pc.signalled = false ∧ pc.drained = false ∧
        pc.unstarted = some [] := by
    cases pc <;> first | exact ⟨rfl, rfl, rfl, rfl⟩ | cases h
  obtain ⟨hunsignalled, -, -, hunstarted⟩ := hloop hbefore
  obtain ⟨-, hsignalled, hdrained, hempty⟩ := hloop hafter
  refine ⟨fun _ ↦ hunsignalled, fun h ↦ ?_, fun h ↦ ?_, fun u hu ↦ ?_⟩
  · cases hsignalled.symm.trans h
  · cases hdrained.symm.trans h
  · exact hunstarted.trans (hempty.symm.trans hu)

end MainPc

namespace SlotPc

/-- The claim that a slot has taken and not called `run_job` with. -/
def hand : SlotPc → Option ClaimedJob
  | taken job => some job
  | _ => none

/-- A slot that will have to be told to end. -/
def awaits : SlotPc → Int
  | leaving | ended => 0
  | _ => 1

end SlotPc

namespace Process

def hand (s : Process) (i : Nat) : Option ClaimedJob := (s.slots[i]?).bind SlotPc.hand

end Process

/-- What a step shows of the claims: `ready.put`, `ready.get` of a slot, `run_job`, and the
`get_nowait` of the drain. -/
def passages (s : Process) (a : ProcessAct) (_ : Process) : List (Handover Nat ClaimedJob) :=
  match a with
  | .put => s.pc.inHand.head?.toList.map .put
  | .take i => s.ready.head?.join.toList.map (.take i)
  | .enter i => (s.hand i).toList.map (.use i)
  | .drain => s.ready.head?.join.toList.map .withdraw
  | _ => []

variable {o : ProcessOptions} {s t : Process} {a : ProcessAct}

-- Whoever holds a row after a call has claimed it with that call, or has held it before.
theorem RowChange.heldBy_before {c : Call} {r : Option Job} {x : Job} {workerId : WorkerId}
    (h : RowChange c r (some x)) (hheld : x.heldBy workerId = true)
    (hc : ∀ lease batch, c.op ≠ .claimJobs workerId lease batch) :
    ∃ y, r = some y ∧ y.heldBy workerId = true := by
  obtain ⟨hlocked, hrunning⟩ := Job.heldBy_iff.mp hheld
  cases h with
  | same => exact ⟨x, rfl, hheld⟩
  | claimed hop =>
      obtain rfl := Option.some.inj hlocked
      exact absurd hop (hc _ _)
  | extended => exact ⟨_, rfl, hheld⟩
  | failed hop hheld' hfail =>
      rcases Job.failed_cases hfail with ⟨rfl, -⟩ | ⟨delay, -, rfl, -⟩ <;> cases hrunning
  | inserted | deadLettered | recovered | released | succeeded | retried => cases hrunning

/-! ## What a step does to the queue and the slots -/

inductive QueueStep (o : ProcessOptions) (s t : Process) : List (Handover Nat ClaimedJob) → Prop
    where
  | main (hready : t.ready = s.ready) (hslots : t.slots = s.slots)
      (hpc : s.pc.Follows s.ready t.pc) : QueueStep o s t []
  | put {job : ClaimedJob} {batch : List ClaimedJob} (hpc : s.pc = .put (job :: batch))
      (hpc' : t.pc = .put batch) (hready : t.ready = s.ready ++ [some job])
      (hslots : t.slots = s.slots) : QueueStep o s t [.put job]
  | drain {unstarted : List ClaimedJob} {job : ClaimedJob} (hpc : s.pc = .drain unstarted)
      (hpc' : t.pc = .drain (unstarted ++ [job])) (hready : s.ready = some job :: t.ready)
      (hslots : t.slots = s.slots) : QueueStep o s t [.withdraw job]
  | sentinels (hpc : s.pc = .sentinels) (hpc' : t.pc = .join)
      (hready : t.ready = s.ready ++ List.replicate o.concurrency none)
      (hslots : t.slots = s.slots) : QueueStep o s t []
  | take {i : Nat} {job : ClaimedJob} (hpc : t.pc = s.pc)
      (hready : s.ready = some job :: t.ready) (hslot : s.slots[i]? = some .waiting)
      (hslots : t.slots = s.slots.set i (.taken job)) : QueueStep o s t [.take i job]
  | sentinel {i : Nat} (hpc : t.pc = s.pc) (hready : s.ready = none :: t.ready)
      (hslot : s.slots[i]? = some .waiting) (hslots : t.slots = s.slots.set i .leaving) :
      QueueStep o s t []
  | enter {i : Nat} {job : ClaimedJob} {new : SlotPc} (hpc : t.pc = s.pc)
      (hready : t.ready = s.ready) (hslot : s.slots[i]? = some (.taken job))
      (hslots : t.slots = s.slots.set i new) (hhand : new.hand = none) (hnew : new ≠ .leaving)
      (hawaits : new.awaits ≤ 1) : QueueStep o s t [.use i job]
  | slot {i : Nat} {old new : SlotPc} (hpc : t.pc = s.pc) (hready : t.ready = s.ready)
      (hslot : s.slots[i]? = some old) (hslots : t.slots = s.slots.set i new)
      (hhand : old.hand = none ∧ new.hand = none) (hnew : new ≠ .leaving)
      (hawaits : new.awaits ≤ old.awaits) : QueueStep o s t []

theorem follows_of_move {pc pc' : MainPc} (h : MainMove o s pc pc') :
    pc.Follows s.ready pc' := by
  cases h with
  | stop | stopAgain => exact ⟨fun _ ↦ rfl, nofun, nofun, fun _ hu ↦ hu⟩
  | loseConnection hguarded =>
      refine .of_looping ?_ rfl
      cases pc <;> first | rfl | cases hguarded
  | @due nothingOutstanding now hidle => exact .of_looping rfl (by split <;> rfl)
  | drained hready => exact ⟨fun _ ↦ rfl, nofun, fun _ ↦ Or.inr hready, fun _ hu ↦ hu⟩
  | joined => exact ⟨nofun, fun _ ↦ rfl, fun _ ↦ Or.inl rfl, nofun⟩
  | _ => exact .of_looping rfl rfl

theorem queue_step (h : ProcessStep o s a t) : QueueStep o s t (passages s a t) := by
  cases h with
  | main hm => exact .main rfl rfl (follows_of_move hm)
  | deadLetter hpc | recover hpc | claimedUnseen hpc | hold hpc | openPool hpc | count hpc
  | close hpc | forget hpc =>
      refine .main rfl rfl ?_
      rw [hpc]
      exact .of_looping rfl rfl
  | claimed hpc =>
      refine .main rfl rfl ?_
      rw [hpc]
      exact .of_looping rfl (by dsimp only; split <;> rfl)
  | put hpc =>
      rw [show passages s .put _ = [.put _] by simp only [passages, hpc]; rfl]
      exact .put hpc rfl rfl rfl
  | putAll hpc =>
      rw [show passages s .put _ = [] by simp only [passages, hpc]; rfl]
      refine .main rfl rfl ?_
      rw [hpc]
      exact .of_looping rfl rfl
  | raise => exact .main rfl rfl ⟨nofun, nofun, nofun, nofun⟩
  | drain hpc hready =>
      rw [show passages s .drain _ = [.withdraw _] by simp only [passages, hready]; rfl]
      exact .drain hpc rfl hready rfl
  | letGo hpc =>
      refine .main rfl rfl ?_
      rw [hpc]
      exact ⟨fun _ ↦ rfl, nofun, fun _ ↦ Or.inl rfl, fun _ hu ↦ hu⟩
  | @handBack unstarted done ctx hpc =>
      cases done <;>
        exact .main rfl rfl (by rw [hpc]; exact ⟨fun _ ↦ rfl, nofun, fun _ ↦ Or.inl rfl, nofun⟩)
  | sentinels hpc => exact .sentinels hpc rfl rfl rfl
  | @take i job rest hslot hready =>
      rw [show passages s (.take i) _ = [.take i job] by simp only [passages, hready]; rfl]
      exact .take rfl hready hslot rfl
  | @sentinel i rest hslot hready =>
      rw [show passages s (.take i) _ = [] by simp only [passages, hready]; rfl]
      exact .sentinel rfl hready hslot rfl
  | @enter i job hslot =>
      have hhand : s.hand i = some job := by
        unfold Process.hand
        rw [hslot]
        rfl
      rw [show passages s (.enter i) _ = [.use i job] by simp only [passages, hhand]; rfl]
      exact .enter rfl rfl hslot rfl rfl nofun (Int.le_refl _)
  | start hslot | unregistered hslot | raises hslot | swallow hslot | complete hslot | fail hslot
  | unrecorded hslot | release hslot | finish hslot | leave hslot =>
      exact .slot rfl rfl hslot rfl ⟨rfl, rfl⟩ nofun (Int.le_refl _)
  | @loop i exit hslot =>
      refine .slot rfl rfl hslot rfl ⟨rfl, ?_⟩ ?_ ?_
      · split <;> rfl
      · split <;> exact nofun
      · split <;> simp [SlotPc.awaits]
  | @beat ctx done => cases done <;> exact .main rfl rfl (.refl _ _)
  | look | stopBeat | setStop | tick | call => exact .main rfl rfl (.refl _ _)

/-! ## The claims on their way -/

namespace Process

/-- The desk on which the process's claims lie. -/
structure Shows (s : Process) (d : Desk Nat ClaimedJob) : Prop where
  queue : d.queue = s.ready.reduceOption
  hands : ∀ i, d.hands i = s.hand i
  aside : ∀ u, s.pc.unstarted = some u → d.aside = u

variable {d : Desk Nat ClaimedJob} {i : Nat} {old new : SlotPc}

theorem hand_set (hslot : s.slots[i]? = some old) (hslots : t.slots = s.slots.set i new) :
    t.hand = Function.update s.hand i new.hand := by
  funext k
  unfold hand
  rw [hslots]
  by_cases hk : k = i
  · obtain ⟨hlt, -⟩ := List.getElem?_eq_some_iff.mp hslot
    rw [hk, Function.update_self, List.getElem?_set_self hlt]
    rfl
  · rw [Function.update_of_ne hk, List.getElem?_set_ne (Ne.symm hk)]

theorem hand_of_slots (hslots : t.slots = s.slots) : t.hand = s.hand := by
  funext k
  rw [hand, hand, hslots]

theorem hand_of_getElem? (hslot : s.slots[i]? = some old) : s.hand i = old.hand := by
  unfold hand
  rw [hslot]
  rfl

theorem hand_set_same (hslot : s.slots[i]? = some old) (hslots : t.slots = s.slots.set i new)
    (hhand : new.hand = old.hand) : t.hand = s.hand := by
  rw [hand_set hslot hslots, hhand, ← hand_of_getElem? hslot, Function.update_eq_self]

-- Each step of the process is a run of the desk on what the step shows.
theorem Shows.step (h : s.Shows d) (ha : ProcessStep o s a t) :
    ∃ e, (desk Nat ClaimedJob).Run d (passages s a t) e ∧ t.Shows e := by
  have hstep := queue_step ha
  generalize passages s a t = es at hstep
  cases hstep with
  | main hready hslots hpc =>
      refine ⟨d, .nil d, ?_, fun i ↦ ?_, fun u hu ↦ h.aside u (hpc.unstarted u hu)⟩
      · rw [hready]
        exact h.queue
      · rw [hand_of_slots hslots]
        exact h.hands i
  | @put job batch hpc hpc' hready hslots =>
      refine ⟨_, .single .put, ?_, fun i ↦ ?_, fun u hu ↦ h.aside u ?_⟩
      · rw [hready, List.reduceOption_append, h.queue]
        rfl
      · rw [hand_of_slots hslots]
        exact h.hands i
      · rw [hpc]
        rw [hpc'] at hu
        exact hu
  | @drain unstarted job hpc hpc' hready hslots =>
      have hqueue : d.queue = job :: t.ready.reduceOption := by
        rw [h.queue, hready, List.reduceOption_cons_of_some]
      refine ⟨_, .single (.withdraw hqueue), rfl, fun i ↦ ?_, fun u hu ↦ ?_⟩
      · rw [hand_of_slots hslots]
        exact h.hands i
      · rw [hpc'] at hu
        rw [h.aside unstarted (by rw [hpc]; rfl)]
        exact Option.some.inj hu
  | sentinels hpc hpc' hready hslots =>
      refine ⟨d, .nil d, ?_, fun i ↦ ?_, fun u hu ↦ ?_⟩
      · rw [hready, List.reduceOption_append, List.reduceOption_replicate_none, List.append_nil]
        exact h.queue
      · rw [hand_of_slots hslots]
        exact h.hands i
      · rw [hpc'] at hu
        cases hu
  | @take i job hpc hready hslot hslots =>
      have hqueue : d.queue = job :: t.ready.reduceOption := by
        rw [h.queue, hready, List.reduceOption_cons_of_some]
      have hfree : d.hands i = none := (h.hands i).trans (hand_of_getElem? hslot)
      refine ⟨_, .single (.take hqueue hfree), rfl, fun k ↦ ?_, fun u hu ↦ h.aside u (hpc ▸ hu)⟩
      rw [hand_set hslot hslots, ← funext h.hands]
      rfl
  | sentinel hpc hready hslot hslots =>
      refine ⟨d, .nil d, ?_, fun k ↦ ?_, fun u hu ↦ h.aside u (hpc ▸ hu)⟩
      · rw [h.queue, hready, List.reduceOption_cons_of_none]
      · rw [hand_set_same hslot hslots rfl]
        exact h.hands k
  | @enter i job new hpc hready hslot hslots hhand =>
      have hhas : d.hands i = some job := (h.hands i).trans (hand_of_getElem? hslot)
      refine ⟨_, .single (.use hhas), ?_, fun k ↦ ?_, fun u hu ↦ h.aside u (hpc ▸ hu)⟩
      · rw [hready]
        exact h.queue
      · rw [hand_set hslot hslots, ← funext h.hands, hhand]
  | @slot i old new hpc hready hslot hslots hhand =>
      refine ⟨d, .nil d, ?_, fun k ↦ ?_, fun u hu ↦ h.aside u (hpc ▸ hu)⟩
      · rw [hready]
        exact h.queue
      · rw [hand_set_same hslot hslots (hhand.2.trans hhand.1.symm)]
        exact h.hands k

/-! ## The end of the queue -/

/-- Sentinels come when the jobs have gone, and there are enough of them. -/
structure Orderly (o : ProcessOptions) (s : Process) : Prop where
  slots : s.slots.length = o.concurrency
  quiet : s.pc.unsignalled = true → none ∉ s.ready ∧ SlotPc.leaving ∉ s.slots
  drained : s.pc.drained = true → s.ready.reduceOption = []
  served : s.pc.signalled = true → total SlotPc.awaits s.slots ≤ s.ready.length

theorem awaits_le_one (slot : SlotPc) : slot.awaits ≤ 1 := by
  cases slot <;> simp [SlotPc.awaits]

theorem awaits_nonneg (slot : SlotPc) : 0 ≤ slot.awaits := by
  cases slot <;> simp [SlotPc.awaits]

theorem drained_of_signalled {pc : MainPc} (h : pc.signalled = true) : pc.drained = true := by
  cases pc <;> first | rfl | cases h

theorem Orderly.no_job (h : s.Orderly o) (hdrained : s.pc.drained = true) {job : ClaimedJob}
    {rest : List (Option ClaimedJob)} : s.ready ≠ some job :: rest := by
  intro hready
  have hempty := h.drained hdrained
  rw [hready, List.reduceOption_cons_of_some] at hempty
  cases hempty

-- A slot that goes on with what it has.
theorem Orderly.set (h : s.Orderly o) (hpc : t.pc = s.pc) (hready : t.ready = s.ready)
    (hslot : s.slots[i]? = some old) (hslots : t.slots = s.slots.set i new) (hnew : new ≠ .leaving)
    (hawaits : new.awaits ≤ old.awaits) : t.Orderly o where
  slots := by
    rw [hslots, List.length_set]
    exact h.slots
  quiet hun := by
    rw [hpc] at hun
    rw [hready, hslots]
    exact ⟨(h.quiet hun).1, noLeaving_set (h.quiet hun).2 hnew⟩
  drained hdr := by
    rw [hpc] at hdr
    rw [hready]
    exact h.drained hdr
  served hsig := by
    rw [hpc] at hsig
    have hserved := h.served hsig
    rw [hready, hslots, total_set hslot]
    omega

theorem Orderly.step (h : s.Orderly o) (ha : ProcessStep o s a t) : t.Orderly o := by
  have hstep := queue_step ha
  generalize passages s a t = es at hstep
  cases hstep with
  | main hready hslots hpc =>
      refine ⟨hslots ▸ h.slots, fun hun ↦ ?_, fun hdr ↦ ?_, fun hsig ↦ ?_⟩
      · rw [hready, hslots]
        exact h.quiet (hpc.unsignalled hun)
      · rw [hready]
        rcases hpc.drained hdr with hbefore | hempty
        · exact h.drained hbefore
        · rw [hempty]
          rfl
      · rw [hready, hslots]
        exact h.served (hpc.signalled hsig)
  | put hpc hpc' hready hslots =>
      obtain ⟨hnone, hleaving⟩ := h.quiet (by rw [hpc]; rfl)
      refine ⟨hslots ▸ h.slots, fun _ ↦ ⟨?_, hslots ▸ hleaving⟩, ?_, ?_⟩
      · rw [hready, List.mem_append, List.mem_singleton]
        rintro (hold | hnew)
        · exact hnone hold
        · cases hnew
      · rw [hpc']
        nofun
      · rw [hpc']
        nofun
  | drain hpc hpc' hready hslots =>
      obtain ⟨hnone, hleaving⟩ := h.quiet (by rw [hpc]; rfl)
      refine ⟨hslots ▸ h.slots, fun _ ↦ ⟨fun hmem ↦ ?_, hslots ▸ hleaving⟩, ?_, ?_⟩
      · exact hnone (hready ▸ List.mem_cons_of_mem _ hmem)
      · rw [hpc']
        nofun
      · rw [hpc']
        nofun
  | sentinels hpc hpc' hready hslots =>
      refine ⟨hslots ▸ h.slots, ?_, fun _ ↦ ?_, fun _ ↦ ?_⟩
      · rw [hpc']
        nofun
      · rw [hready, List.reduceOption_append, h.drained (by rw [hpc]; rfl),
          List.reduceOption_replicate_none]
        rfl
      · -- one for each slot that was started
        have hle := total_le_length (l := s.slots) fun x _ ↦ awaits_le_one x
        rw [h.slots] at hle
        rw [hready, hslots, List.length_append, List.length_replicate]
        omega
  | @take i job hpc hready hslot hslots =>
      refine ⟨?_, fun hun ↦ ?_, fun hdr ↦ ?_, fun hsig ↦ ?_⟩
      · rw [hslots, List.length_set]
        exact h.slots
      · rw [hpc] at hun
        obtain ⟨hnone, hleaving⟩ := h.quiet hun
        refine ⟨fun hmem ↦ hnone (hready ▸ List.mem_cons_of_mem _ hmem), ?_⟩
        rw [hslots]
        exact noLeaving_set hleaving nofun
      · exact absurd hready (h.no_job (hpc ▸ hdr))
      · exact absurd hready (h.no_job (drained_of_signalled (hpc ▸ hsig)))
  | sentinel hpc hready hslot hslots =>
      refine ⟨?_, fun hun ↦ ?_, fun hdr ↦ ?_, fun hsig ↦ ?_⟩
      · rw [hslots, List.length_set]
        exact h.slots
      · rw [hpc] at hun
        exact absurd (hready ▸ List.mem_cons_self) (h.quiet hun).1
      · rw [hpc] at hdr
        rw [← List.reduceOption_cons_of_none, ← hready]
        exact h.drained hdr
      · rw [hpc] at hsig
        have hserved := h.served hsig
        rw [hready, List.length_cons] at hserved
        rw [hslots, total_set hslot]
        simp only [SlotPc.awaits]
        omega
  | enter hpc hready hslot hslots hhand hnew hawaits =>
      exact h.set hpc hready hslot hslots hnew hawaits
  | slot hpc hready hslot hslots hhand hnew hawaits =>
      exact h.set hpc hready hslot hslots hnew hawaits

theorem orderly_of_reachable (h : (process o).Reachable s) : s.Orderly o := by
  apply h.invariant
  · rintro s ⟨jobs, rfl⟩
    refine ⟨List.length_replicate, fun _ ↦ ⟨List.not_mem_nil, fun hmem ↦ ?_⟩, nofun, nofun⟩
    cases List.eq_of_mem_replicate hmem
  · intro s a t hs ha
    exact hs.step ha

/-! ## Handing back -/

/-- The calls of others carry the ids of others: `generate_worker_id` draws a new one for each
call of `run_worker`. -/
def othersCalls (o : ProcessOptions) (_ : Process) : ProcessAct → Prop
  | .call c => c.op.workerId ≠ some o.workerId
  | _ => True

/-- The worker holds none of these rows. -/
def Unheld (workerId : WorkerId) (ids : List Nat) (t : Jobs) : Prop :=
  ∀ id ∈ ids, ∀ x, t.row id = some x → x.heldBy workerId = false

-- A worker comes to hold a row by claiming it only.
theorem Unheld.run {workerId : WorkerId} {ids : List Nat} {t : Jobs} (h : Unheld workerId ids t)
    {c : Call} (hc : ∀ lease batch, c.op ≠ .claimJobs workerId lease batch) :
    Unheld workerId ids (c.run t) := by
  intro id hid x hx
  have hchange := c.run_row t id
  rw [hx] at hchange
  refine Bool.eq_false_iff.mpr fun hheld ↦ ?_
  obtain ⟨y, hy, hbefore⟩ := hchange.heldBy_before hheld hc
  exact absurd hbefore (by rw [h id hid y hy]; exact Bool.false_ne_true)

theorem Unheld.step {ids : List Nat} (h : Unheld o.workerId ids s.jobs)
    (hpc : s.pc.handedBack = true) (hothers : othersCalls o s a) (ha : ProcessStep o s a t) :
    t.pc.handedBack = true ∧ Unheld o.workerId ids t.jobs := by
  cases ha with
  | main hm =>
      generalize hbefore : s.pc = pc at hm hpc
      cases hm with
      | joined => exact ⟨rfl, h⟩
      | loseConnection hguarded => cases pc <;> simp [MainPc.guarded] at hguarded <;> cases hpc
      | _ => cases hpc
  | deadLetter hat | recover hat | claimed hat | claimedUnseen hat | hold hat | openPool hat
  | count hat | put hat | putAll hat | close hat | forget hat | drain hat | letGo hat
  | handBack hat =>
      rw [hat] at hpc
      cases hpc
  | raise | sentinels => exact ⟨rfl, h⟩
  | complete | fail => exact ⟨hpc, h.run nofun⟩
  | @beat ctx done =>
      cases done with
      | false => exact ⟨hpc, h⟩
      | true => exact ⟨hpc, h.run nofun⟩
  | @call c =>
      refine ⟨hpc, h.run fun lease batch hop ↦ hothers ?_⟩
      rw [hop]
      rfl
  | _ => exact ⟨hpc, h⟩

theorem Unheld.of_run {ids : List Nat} {as : List ProcessAct} (h : Unheld o.workerId ids s.jobs)
    (hpc : s.pc.handedBack = true) (hrun : ((process o).restrict (othersCalls o)).Run s as t) :
    Unheld o.workerId ids t.jobs := by
  induction hrun with
  | nil => exact h
  | cons ha _ ih =>
      obtain ⟨hpc', h'⟩ := h.step hpc ha.1 ha.2
      exact ih h' hpc'

-- Whatever list the heartbeat has in hand.
theorem row_beat_of_unheld {ids : List Nat} {id : Nat} {ctx : Ctx} {done : Bool}
    (h : Unheld o.workerId ids s.jobs) (hid : id ∈ ids) (ha : ProcessStep o s (.beat ctx done) t) :
    t.jobs.row id = s.jobs.row id := by
  cases ha with
  | beat hbeat =>
      cases done with
      | false => rfl
      | true =>
          refine Jobs.row_updateHeld_of_not_heldBy (fun x hx _ hheld ↦ ?_) _
          rw [h id hid x hx] at hheld
          cases hheld

section HandBack

variable {unstarted : List ClaimedJob}

theorem handBack_jobs (hpc : s.pc = .handBack unstarted)
    (ha : ProcessStep o s (.handBack true) t) : t.pc = .sentinels ∧
      t.jobs = (s.jobs.releaseJobs (unstarted.map (·.id)) o.workerId).1 := by
  cases ha with
  | handBack hat =>
      rw [hpc] at hat
      cases hat
      exact ⟨rfl, rfl⟩

theorem row_handBack {job : ClaimedJob} {x : Job} (hpc : s.pc = .handBack unstarted)
    (ha : ProcessStep o s (.handBack true) t) (hjob : job ∈ unstarted)
    (hx : s.jobs.row job.id = some x) (hheld : x.heldBy o.workerId = true) :
    t.jobs.row job.id =
      some { x with status := .pending, lockedBy := none, lockedUntil := none } := by
  rw [(handBack_jobs hpc ha).2]
  exact Jobs.row_updateHeld_of_heldBy hx (List.mem_map_of_mem hjob) hheld _

theorem row_handBack_other {id : Nat} (hpc : s.pc = .handBack unstarted)
    (ha : ProcessStep o s (.handBack true) t)
    (hother : ∀ x, s.jobs.row id = some x → x.heldBy o.workerId = true →
      id ∉ unstarted.map (·.id)) :
    t.jobs.row id = s.jobs.row id := by
  rw [(handBack_jobs hpc ha).2]
  exact Jobs.row_updateHeld_of_not_heldBy (fun x hx hid hheld ↦ hother x hx hheld hid) _

theorem unheld_handBack (hpc : s.pc = .handBack unstarted)
    (ha : ProcessStep o s (.handBack true) t) :
    Unheld o.workerId (unstarted.map (·.id)) t.jobs := by
  intro id hid x hx
  obtain ⟨job, hjob, rfl⟩ := List.mem_map.mp hid
  refine Bool.eq_false_iff.mpr fun hheld ↦ ?_
  by_cases hbefore : ∃ y, s.jobs.row job.id = some y ∧ y.heldBy o.workerId = true
  · obtain ⟨y, hy, hyheld⟩ := hbefore
    obtain rfl := Option.some.inj ((row_handBack hpc ha hjob hy hyheld).symm.trans hx)
    cases (Job.heldBy_iff.mp hheld).1
  · refine hbefore ⟨x, ?_, hheld⟩
    rw [← row_handBack_other hpc ha fun y hy hyheld ↦ absurd ⟨y, hy, hyheld⟩ hbefore]
    exact hx

/-- The outcome of a `release_jobs` that succeeds, for the rows that are still the worker's and
for all the others. -/
structure HandedBack (o : ProcessOptions) (s t : Process) (unstarted : List ClaimedJob) : Prop where
  released : ∀ job ∈ unstarted, ∀ x, s.jobs.row job.id = some x → x.heldBy o.workerId = true →
    t.jobs.row job.id = some { x with status := .pending, lockedBy := none, lockedUntil := none }
  untouched : ∀ id, (∀ x, s.jobs.row id = some x → x.heldBy o.workerId = true →
    id ∉ unstarted.map (·.id)) → t.jobs.row id = s.jobs.row id
  unleased : ∀ as v, ((process o).restrict (othersCalls o)).Run t as v → ∀ job ∈ unstarted,
    (∀ x, v.jobs.row job.id = some x → x.heldBy o.workerId = false) ∧
    ∀ ctx done v', ProcessStep o v (.beat ctx done) v' → v'.jobs.row job.id = v.jobs.row job.id

theorem handedBack_of_step (hpc : s.pc = .handBack unstarted)
    (ha : ProcessStep o s (.handBack true) t) : HandedBack o s t unstarted where
  released job hjob x hx hheld := row_handBack hpc ha hjob hx hheld
  untouched id hother := row_handBack_other hpc ha hother
  unleased as v hrun job hjob := by
    have hgone : t.pc.handedBack = true := by
      rw [(handBack_jobs hpc ha).1]
      rfl
    have hv := (unheld_handBack hpc ha).of_run hgone hrun
    have hid := List.mem_map_of_mem (f := ClaimedJob.id) hjob
    exact ⟨hv job.id hid, fun ctx done v' hbeat ↦ row_beat_of_unheld hv hid hbeat⟩

end HandBack

/-! ## The partition -/

theorem shows_of_observed {jobs : Jobs} {es : List (Handover Nat ClaimedJob)}
    (h : (process o).Observed passages (start o jobs) es s) :
    ∃ e, (desk Nat ClaimedJob).Run ⟨[], fun _ ↦ none, []⟩ es e ∧ s.Shows e := by
  refine h.simulated Shows (fun s a t d hd ha ↦ hd.step ha) ⟨rfl, fun i ↦ ?_, fun u hu ↦ ?_⟩
  · unfold hand
    rcases hslot : (start o jobs).slots[i]? with _ | slot
    · rfl
    · rw [List.eq_of_mem_replicate (List.mem_of_getElem? hslot)]
      rfl
  · exact Option.some.inj hu

-- After the loop nothing is put into the queue but sentinels.
theorem puts_of_not_looping {es : List (Handover Nat ClaimedJob)}
    (h : (process o).Observed passages s es t) (hs : s.pc.looping = false) : puts es = [] := by
  induction h with
  | nil => rfl
  | @cons s t u a es ha _ ih =>
      have hafter : t.pc.looping = false :=
        Bool.eq_false_iff.mpr fun ht ↦ by rw [looping_of_step ha ht] at hs; cases hs
      have hstep := queue_step ha
      rw [puts_append, ih hafter, List.append_nil]
      generalize passages s a t = shown at hstep
      cases hstep with
      | put hpc =>
          rw [hpc] at hs
          cases hs
      | _ => rfl

-- Each turn of the drain loop takes a claim off the queue.
theorem drain_bounded {es : List (Handover Nat ClaimedJob)} {d : Desk Nat ClaimedJob}
    (hd : s.Shows d) (hs : s.pc.looping = false) (h : (process o).Observed passages s es t) :
    (removals es).length ≤ s.ready.length := by
  obtain ⟨e, hrun, -⟩ := h.simulated Shows (fun s a t d hd ha ↦ hd.step ha) hd
  have hqueue := queue_conserved hrun
  rw [puts_of_not_looping h hs, List.append_nil, hd.queue] at hqueue
  have hlen := congrArg List.length hqueue
  have hle := List.reduceOption_length_le s.ready
  rw [List.length_append] at hlen
  omega

theorem Orderly.job_of_drain (h : s.Orderly o) {unstarted : List ClaimedJob}
    (hpc : s.pc = .drain unstarted) :
    s.ready = [] ∨ ∃ job rest, s.ready = some job :: rest := by
  obtain ⟨hnone, -⟩ := h.quiet (by rw [hpc]; rfl)
  cases hready : s.ready with
  | nil => exact Or.inl rfl
  | cons item rest =>
      cases item with
      | none => exact absurd (hready ▸ List.mem_cons_self) hnone
      | some job => exact Or.inr ⟨job, rest, rfl⟩

-- A slot that is still there finds a sentinel at the head of the queue.
theorem Orderly.sentinel (h : s.Orderly o) (hpc : s.pc.signalled = true) {i : Nat}
    (hslot : s.slots[i]? = some .waiting) :
    ∃ t, ProcessStep o s (.take i) t ∧ t.slots[i]? = some .leaving := by
  have hpos := total_pos_of_mem (f := SlotPc.awaits) (fun x _ ↦ awaits_nonneg x)
    (List.mem_of_getElem? hslot) Int.zero_lt_one
  have hserved := h.served hpc
  cases hready : s.ready with
  | nil =>
      rw [hready] at hserved
      exact absurd hserved (by simpa using hpos)
  | cons item rest =>
      cases item with
      | some job => exact absurd hready (h.no_job (drained_of_signalled hpc))
      | none =>
          refine ⟨_, .sentinel hslot hready, ?_⟩
          obtain ⟨hlt, -⟩ := List.getElem?_eq_some_iff.mp hslot
          exact List.getElem?_set_self hlt

theorem Orderly.no_take (h : s.Orderly o) (hpc : s.pc.drained = true) {i : Nat} {job : ClaimedJob}
    (ha : ProcessStep o s (.take i) t) : t.slots[i]? ≠ some (.taken job) := by
  cases ha with
  | take hslot hready => exact absurd hready (h.no_job hpc)
  | sentinel hslot hready =>
      obtain ⟨hlt, -⟩ := List.getElem?_eq_some_iff.mp hslot
      intro htaken
      cases (List.getElem?_set_self hlt).symm.trans htaken

/-- The claims in every run of a worker.  Each one that is put into the queue leaves it once, for
one slot or for `unstarted`, and a slot runs what it has taken itself.  The drain loop ends, and
from then on no claim is left and no slot gets one.  A hand-back that succeeds makes pending what
is still the worker's and touches nothing else, and no beat that follows leases it again.  Once the
sentinels are in the queue, each slot that is still there finds one. -/
theorem shutdown_partitions {jobs : Jobs} {es : List (Handover Nat ClaimedJob)}
    (h : (process o).Observed passages (start o jobs) es s) :
    puts es = removals es ++ s.ready.reduceOption ∧
    (∀ i, takesOf i es = usesOf i es ++ (s.hand i).toList) ∧
    (∀ unstarted, s.pc.unstarted = some unstarted → unstarted = withdrawn es) ∧
    (∀ unstarted, s.pc = .drain unstarted →
      (s.ready = [] ∨ ∃ job rest, s.ready = some job :: rest) ∧
      ∀ es' t, (process o).Observed passages s es' t → (removals es').length ≤ s.ready.length) ∧
    (s.pc.drained = true → s.ready.reduceOption = [] ∧
      ∀ i t job, ProcessStep o s (.take i) t → t.slots[i]? ≠ some (.taken job)) ∧
    (∀ unstarted t, s.pc = .handBack unstarted → ProcessStep o s (.handBack true) t →
      HandedBack o s t unstarted) ∧
    (s.pc.signalled = true → total SlotPc.awaits s.slots ≤ s.ready.length ∧
      ∀ i, s.slots[i]? = some .waiting →
        ∃ t, ProcessStep o s (.take i) t ∧ t.slots[i]? = some .leaving) := by
  obtain ⟨e, hrun, hshows⟩ := shows_of_observed h
  have horderly := orderly_of_reachable (h.reachable (.init ⟨jobs, rfl⟩))
  refine ⟨?_, fun i ↦ ?_, fun unstarted hu ↦ ?_, fun unstarted hpc ↦ ⟨?_, fun es' t h' ↦ ?_⟩,
    fun hpc ↦ ⟨horderly.drained hpc, fun i t job ha ↦ horderly.no_take hpc ha⟩,
    fun unstarted t hpc ha ↦ handedBack_of_step hpc ha,
    fun hpc ↦ ⟨horderly.served hpc, fun i hslot ↦ horderly.sentinel hpc hslot⟩⟩
  · rw [← hshows.queue]
    exact queue_conserved hrun
  · rw [← hshows.hands i]
    exact hands_conserved hrun i
  · rw [← hshows.aside unstarted hu]
    exact (aside_conserved hrun).symm
  · exact horderly.job_of_drain hpc
  · exact drain_bounded hshows (by rw [hpc]; rfl) h'

/-- One of two claims is running when the worker is told to stop, and the other one is drained. -/
theorem shutdown_partitions_second : ∃ (es : List (Handover Nat ClaimedJob)) (s t : Process),
    (process single).Observed passages (start single .empty) es s ∧ s.pc.drained = true ∧
    puts es = removals es ∧ takesOf 0 es = usesOf 0 es ∧ withdrawn es = [⟨2, "t", ""⟩] ∧
    ProcessStep single s (.handBack true) t ∧
    (t.jobs.row 1).map Job.status = some .running ∧
    (t.jobs.row 2).map (fun x ↦ (x.status, x.recoveries)) = some (.pending, 0) := by
  have hstopped := twoClaimed_run.trans <| .cons (.take (i := 0) rfl rfl) <|
    .cons (.enter (i := 0) rfl) <| .cons .setStop <| .cons (.main (.stop rfl)) <|
    .cons (.drain rfl rfl) <| .cons (.main (.drained rfl)) <| .cons (.letGo rfl) <| .nil _
  obtain ⟨es, hes⟩ := hstopped.observed passages
  obtain ⟨hputs, htakes, hunstarted, -, -, hback, -⟩ := shutdown_partitions hes
  have hback := hback _ _ rfl (@ProcessStep.handBack single _ _ true (.alone 0) rfl)
  have hreleased := hback.released ⟨2, "t", ""⟩ List.mem_cons_self _ rfl rfl
  refine ⟨es, _, _, hes, rfl, ?_, ?_, (hunstarted _ rfl).symm,
    @ProcessStep.handBack single _ _ true (.alone 0) rfl, rfl, ?_⟩
  · exact hputs.trans (List.append_nil _)
  · exact (htakes 0).trans (List.append_nil _)
  · rw [hreleased]
    rfl

/-- A slot that finishes its job while the queue is being drained takes another one. -/
theorem taken_while_draining : ∃ s t : Process, (process single).Reachable s ∧ s.stop = true ∧
    s.pc = .drain [] ∧
    s.slots = [.running ⟨1, "t", ""⟩ (some 0) (.released .returned)] ∧
    (process single).Run s [.finish 0, .loop 0, .take 0] t ∧ t.slots = [.taken ⟨2, "t", ""⟩] := by
  have hrun := (twoClaimed_run.reachable (.init ⟨_, rfl⟩)).step (.take (i := 0) rfl rfl)
  have hrun := (hrun.step (.enter (i := 0) rfl)).step (.start (i := 0) rfl rfl)
  have hrun := hrun.step (@ProcessStep.complete single _ 0 _ _ _ (.alone 0) true rfl)
  have hrun := ((hrun.step (.release (i := 0) rfl)).step .setStop).step (.main (.stop rfl))
  exact ⟨_, _, hrun, rfl, rfl, rfl,
    .cons (.finish rfl) <| .cons (.loop rfl) <| .cons (.take rfl rfl) <| .nil _, rfl⟩

end Process

end DurableQueue
