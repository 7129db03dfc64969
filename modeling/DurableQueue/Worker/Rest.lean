import DurableQueue.Worker.Connections

/-!
# An idle worker at rest

A worker in idle mode sleeps until something is due, or until somebody wakes it.  Before a long
sleep it closes its connections, and its heartbeat closes its own in the next round, since by then
the map is empty.
-/

open Reasoning

namespace DurableQueue

/-- A call of `run_worker` with what its sleep depends on: the generation of `wakeup`, the loop's
`seen` and `timeout`, and the slots that have found `outstanding` at 0 and have not called `wake()`
yet. -/
structure Sleeper where
  call : WorkerCall
  generation : Nat
  seen : Nat
  timeout : Option Int
  owing : Nat → Bool

inductive SleeperAct where
  | call (a : CallAct)
  | due (now : Int)
  | wake (i : Nat)
  | wakeup

/-- Where `seen = wakeup.current()` comes next. -/
def MainPc.reads : MainPc → Bool
  | test => true
  | _ => false

namespace Sleeper

def start (o : ProcessOptions) (workerId : WorkerId) (jobs : Jobs) : Sleeper :=
  ⟨.start o workerId jobs, 0, 0, none, fun _ ↦ false⟩

/-- What a step of the call has to wait for. -/
def allows (s : Sleeper) : CallAct → WorkerCall → Prop
  -- `seconds_until_due` may lose the connection here, and `wakeup.wait` returns when it may
  | .process .main, d =>
      (∀ b, s.call.process.pc = .due b → d.process.pc = .pause) ∧
        (s.call.process.pc = .sleep → s.generation ≠ s.seen ∨ s.timeout ≠ none)
  -- `claim_conn.close()` comes before `slot_pool.close()`
  | .process .close, _ => s.call.claimConn = false
  -- `if not live:` the heartbeat closes its connection and does nothing else
  | .process (.beat _ done), _ =>
      ∀ readAt, s.call.process.beat = some ([], readAt) →
        done = false ∧ s.call.heartbeatConn = false
  | .connectHeartbeat, _ => ∀ readAt, s.call.process.beat ≠ some ([], readAt)
  -- `if idle and finished_last`
  | .process (.loop i), _ => s.owing i = false
  | _, _ => True

/-- The rest of the worker after a step of the call. -/
def after (s : Sleeper) (a : CallAct) (d : WorkerCall) : Sleeper :=
  { s with
    call := d
    seen := match a with
      | .process .main => if s.call.process.pc.reads then s.generation else s.seen
      | _ => s.seen
    owing := match a with
      | .process (.finish i) =>
          Function.update s.owing i (decide (d.process.outstanding = 0))
      | _ => s.owing }

end Sleeper

inductive SleeperStep (o : ProcessOptions) : Sleeper → SleeperAct → Sleeper → Prop where
  | call {s : Sleeper} {a : CallAct} {d : WorkerCall} (ha : CallStep o s.call a d)
      (hallows : s.allows a d) : SleeperStep o s (.call a) (s.after a d)
  -- `timeout = None if seconds is None else max(seconds, MIN_SLEEP)`
  | due {s : Sleeper} {d : WorkerCall} {now : Int} {nothingOutstanding : Bool}
      (hpc : s.call.process.pc = .due nothingOutstanding) (hconn : s.call.claimConn = true)
      (ha : CallStep o s.call (.process .main) d)
      (hto : d.process.pc =
        if nothingOutstanding && longSleep (sleepTimeout (s.call.process.jobs.secondsUntilDue now))
        then .close else .sleep) :
      SleeperStep o s (.due now)
        { s with call := d, timeout := sleepTimeout (s.call.process.jobs.secondsUntilDue now) }
  -- the end of a burst
  | wake {s : Sleeper} {i : Nat} (howing : s.owing i = true) :
      SleeperStep o s (.wake i)
        { s with generation := s.generation + 1, owing := Function.update s.owing i false }
  -- by an enqueue, a schedule, a retry or a stop in this process
  | wakeup {s : Sleeper} :
      SleeperStep o s .wakeup { s with generation := s.generation + 1 }

def sleeper (o : ProcessOptions) : System Sleeper SleeperAct where
  init s := ∃ workerId jobs, s = .start o workerId jobs
  step := SleeperStep o

variable {o : ProcessOptions}

/-! ## The heartbeat's map -/

/-- The jobs that have been held and are neither in the queue nor with a slot yet. -/
def MainPc.held : MainPc → List ClaimedJob
  | openPool batch | count batch | put batch => batch
  | _ => []

/-- It has the job, and `run_job` has not let go of it. -/
def SlotPc.holds (id : Nat) : SlotPc → Prop
  | taken job => job.id = id
  | running _ _ (.released _) => False
  | running job _ _ => job.id = id
  | _ => False

namespace Process

variable {s t : Process} {a : ProcessAct} {i : Nat} {old new : SlotPc}

/-- Each entry of the map is of a job that the process still has. -/
def Tracked (s : Process) : Prop :=
  ∀ id, (s.deadlines.lookup id).isSome = true →
    id ∈ s.pc.held.map (·.id) ∨ (∃ job, some job ∈ s.ready ∧ job.id = id) ∨
      ∃ slot ∈ s.slots, slot.holds id

theorem Tracked.of_same (h : s.Tracked) (hpc : t.pc.held = s.pc.held) (hready : t.ready = s.ready)
    (hslots : t.slots = s.slots) (hmap : t.deadlines = s.deadlines) : t.Tracked := by
  intro id hid
  rw [hmap] at hid
  rw [hpc, hready, hslots]
  exact h id hid

-- A slot goes on, and keeps the job or lets go of its entry.
theorem Tracked.setSlot (h : s.Tracked) (hslot : s.slots[i]? = some old)
    (hpc : t.pc = s.pc) (hready : t.ready = s.ready) (hslots : t.slots = s.slots.set i new)
    (hmap : ∀ id, (t.deadlines.lookup id).isSome = true →
      new.holds id ∨ (s.deadlines.lookup id).isSome = true ∧ ¬ old.holds id) : t.Tracked := by
  intro id hid
  obtain ⟨hlt, hget⟩ := List.getElem?_eq_some_iff.mp hslot
  rw [hpc, hready, hslots]
  rcases hmap id hid with hnew | ⟨hold, hnot⟩
  · exact Or.inr (Or.inr ⟨new, List.mem_set hlt _, hnew⟩)
  · rcases h id hold with hheld | hqueued | ⟨slot, hmem, hholds⟩
    · exact Or.inl hheld
    · exact Or.inr (Or.inl hqueued)
    · refine Or.inr (Or.inr ⟨slot, ?_, hholds⟩)
      obtain ⟨j, hj⟩ := List.mem_iff_getElem?.mp hmem
      refine List.mem_iff_getElem?.mpr ⟨j, ?_⟩
      rw [List.getElem?_set_ne, hj]
      rintro rfl
      obtain rfl := Option.some.inj (hslot.symm.trans hj)
      exact hnot hholds

theorem Tracked.keepSlot (h : s.Tracked) (hslot : s.slots[i]? = some old)
    (hpc : t.pc = s.pc) (hready : t.ready = s.ready) (hslots : t.slots = s.slots.set i new)
    (hmap : t.deadlines = s.deadlines) (hholds : ∀ id, old.holds id → new.holds id) :
    t.Tracked := by
  refine h.setSlot hslot hpc hready hslots fun id hid ↦ ?_
  rw [hmap] at hid
  by_cases hold : old.holds id
  · exact Or.inl (hholds id hold)
  · exact Or.inr ⟨hid, hold⟩

theorem Tracked.take {job : ClaimedJob} {rest : List (Option ClaimedJob)} (h : s.Tracked)
    (hslot : s.slots[i]? = some .waiting) (hready : s.ready = some job :: rest) :
    ({ s with ready := rest }.setSlot i (.taken job)).Tracked := by
  intro id hid
  obtain ⟨hlt, -⟩ := List.getElem?_eq_some_iff.mp hslot
  rcases h id hid with hheld | ⟨job', hmem, rfl⟩ | ⟨slot, hmem, hholds⟩
  · exact Or.inl hheld
  · rw [hready] at hmem
    rcases List.mem_cons.mp hmem with heq | hmem
    · obtain rfl := Option.some.inj heq
      exact Or.inr (Or.inr ⟨.taken job', List.mem_set hlt _, rfl⟩)
    · exact Or.inr (Or.inl ⟨job', hmem, rfl⟩)
  · refine Or.inr (Or.inr ⟨slot, ?_, hholds⟩)
    obtain ⟨j, hj⟩ := List.mem_iff_getElem?.mp hmem
    refine List.mem_iff_getElem?.mpr ⟨j, ?_⟩
    refine (List.getElem?_set_ne ?_).trans hj
    rintro rfl
    obtain rfl := Option.some.inj (hslot.symm.trans hj)
    exact hholds

-- `hold` of a batch enters it, and of a single job again when its slot has it already.
theorem Tracked.hold {batch : List ClaimedJob} (h : s.Tracked) (hpc : s.pc = .hold batch) :
    Tracked
      { s with
        deadlines := s.deadlines.hold (batch.map (·.id)) none s.time
        pc := .openPool batch } := by
  intro id hid
  change ((s.deadlines.hold (batch.map (·.id)) none s.time).lookup id).isSome = true at hid
  rw [Deadlines.lookup_hold] at hid
  by_cases hmem : id ∈ batch.map (·.id)
  · exact Or.inl hmem
  · rw [if_neg hmem] at hid
    have hold := h id hid
    rw [hpc] at hold
    exact hold.imp_left fun hnone ↦ absurd hnone List.not_mem_nil

theorem Tracked.put {job : ClaimedJob} {batch : List ClaimedJob} (h : s.Tracked)
    (hpc : s.pc = .put (job :: batch)) :
    Tracked { s with ready := s.ready ++ [some job], pc := .put batch } := by
  intro id hid
  have hold := h id hid
  rw [hpc] at hold
  rcases hold with hheld | ⟨job', hmem, hjob⟩ | hslot
  · rcases List.mem_cons.mp hheld with rfl | hheld
    · exact Or.inr (Or.inl ⟨job, List.mem_append_right _ (List.mem_singleton_self _), rfl⟩)
    · exact Or.inl hheld
  · exact Or.inr (Or.inl ⟨job', List.mem_append_left _ hmem, hjob⟩)
  · exact Or.inr (Or.inr hslot)

theorem held_of_move {pc pc' : MainPc} (h : MainMove o s pc pc') : pc'.held = pc.held := by
  cases h with
  | loseConnection hguarded => cases pc <;> first | rfl | cases hguarded
  | due => split <;> rfl
  | _ => rfl

theorem Tracked.step (h : s.Tracked) (hacc : s.Accounted o) (ha : ProcessStep o s a t)
    (ht : t.pc.looping = true) : t.Tracked := by
  have hs := looping_of_step ha ht
  cases ha with
  | main hm => exact h.of_same (held_of_move hm) rfl rfl rfl
  | deadLetter hpc | recover hpc | claimedUnseen hpc | close hpc | forget hpc | putAll hpc =>
      exact h.of_same (by rw [hpc]; rfl) rfl rfl rfl
  | claimed hpc =>
      refine h.of_same ?_ rfl rfl rfl
      rw [hpc]
      dsimp only
      split <;> rfl
  | hold hpc => exact h.hold hpc
  | openPool hpc | count hpc => exact h.of_same (by rw [hpc]; rfl) rfl rfl rfl
  | put hpc => exact h.put hpc
  | raise | drain | letGo | sentinels => cases ht
  | handBack hpc =>
      rw [hpc] at hs
      cases hs
  | take hslot hready => exact h.take hslot hready
  | enter hslot | unregistered hslot | swallow hslot | fail hslot | unrecorded hslot =>
      exact h.keepSlot hslot rfl rfl rfl rfl fun id hid ↦ hid
  | raises hslot | complete hslot =>
      refine h.keepSlot hslot rfl rfl rfl rfl fun id hid ↦ ?_
      split <;> exact hid
  | finish hslot | loop hslot =>
      exact h.keepSlot hslot rfl rfl rfl rfl fun id hid ↦ (hid : False).elim
  | @start i job pool ceiling hslot htask =>
      refine h.setSlot hslot rfl rfl rfl fun id hid ↦ ?_
      change ((s.deadlines.hold [job.id] (some ceiling) s.time).lookup id).isSome = true at hid
      rw [Deadlines.lookup_hold] at hid
      by_cases hjob : id = job.id
      · exact Or.inl hjob.symm
      · rw [if_neg fun hmem ↦ hjob (List.mem_singleton.mp hmem)] at hid
        exact Or.inr ⟨hid, fun hheld ↦ hjob hheld.symm⟩
  | @release i job pool deadline exit hslot =>
      refine h.setSlot hslot rfl rfl rfl fun id hid ↦ ?_
      change ((s.deadlines.release [job.id]).lookup id).isSome = true at hid
      rw [Deadlines.lookup_release] at hid
      by_cases hjob : id = job.id
      · rw [if_pos (List.mem_singleton.mpr hjob)] at hid
        cases hid
      · rw [if_neg fun hmem ↦ hjob (List.mem_singleton.mp hmem)] at hid
        exact Or.inr ⟨hid, fun hheld ↦ hjob hheld.symm⟩
  | sentinel hslot hready => exact absurd (hready ▸ List.mem_cons_self) hacc.noSentinel
  | leave hslot => exact h.keepSlot hslot rfl rfl rfl rfl fun id hid ↦ (hid : False).elim
  | look | stopBeat | tick | call | setStop => exact h.of_same rfl rfl rfl rfl
  | @beat ctx done => cases done <;> exact h.of_same rfl rfl rfl rfl

-- With nothing outstanding, and nothing in hand, the map is empty.
theorem Tracked.lookup_none (h : s.Tracked) (hacc : s.Accounted o) (hzero : s.outstanding = 0)
    (hpc : s.pc.held = []) (id : Nat) : s.deadlines.lookup id = none := by
  have hbalance := hacc.balance
  have hready := total_nonneg (l := s.ready) fun x _ ↦ queued_nonneg x
  have hslots := total_nonneg (l := s.slots) fun x _ ↦ busy_nonneg x
  have hcounted := counted_nonneg s.pc
  refine Option.not_isSome_iff_eq_none.mp fun hid ↦ ?_
  rcases h id hid with hheld | ⟨job, hmem, -⟩ | ⟨slot, hmem, hholds⟩
  · rw [hpc] at hheld
    exact List.not_mem_nil hheld
  · have hpos : 0 < total queued s.ready :=
      total_pos_of_mem (fun x _ ↦ queued_nonneg x) hmem Int.one_pos
    omega
  · have hbusy : 0 < slot.busy := by
      cases slot with
      | taken job | running job pool phase => exact Int.one_pos
      | _ => exact hholds.elim
    have hpos := total_pos_of_mem (fun x _ ↦ busy_nonneg x) hmem hbusy
    omega

-- A slot that is between `outstanding -= 1` and the end of its round stays there.
theorem finishing_of_step {exit : Exit} (ha : ProcessStep o s a t)
    (hslot : s.slots[i]? = some (.finishing exit)) (hloop : a ≠ .loop i) :
    t.slots[i]? = some (.finishing exit) := by
  have hset {j : Nat} {old new : SlotPc} (hj : s.slots[j]? = some old)
      (hne : old ≠ .finishing exit) :
      (s.slots.set j new)[i]? = some (.finishing exit) := by
    rw [List.getElem?_set_ne, hslot]
    rintro rfl
    exact hne (Option.some.inj (hj.symm.trans hslot))
  cases ha with
  | take hj | enter hj | start hj | unregistered hj | raises hj | swallow hj | complete hj | fail hj
  | unrecorded hj | release hj | finish hj | sentinel hj | leave hj => exact hset hj nofun
  | @loop j exit' hj =>
      change (s.slots.set j _)[i]? = _
      rw [List.getElem?_set_ne, hslot]
      rintro rfl
      exact hloop rfl
  | @handBack unstarted done | @beat ctx done => cases done <;> exact hslot
  | _ => exact hslot

-- The last slot to finish is the one that takes the counter to 0.
theorem outstanding_of_step (hacc : s.Accounted o) (ha : ProcessStep o s a t)
    (ht : t.pc.looping = true) (hpos : 0 < s.outstanding) :
    0 < t.outstanding ∨ t.outstanding = 0 ∧ ∃ i, a = .finish i := by
  have hs := looping_of_step ha ht
  cases ha with
  | @finish i =>
      by_cases hone : s.outstanding - 1 = 0
      · exact Or.inr ⟨hone, i, rfl⟩
      · exact Or.inl (show 0 < s.outstanding - 1 by omega)
  | @count batch =>
      refine Or.inl ?_
      change 0 < s.outstanding + batch.length
      omega
  | leave hslot => exact absurd (List.mem_of_getElem? hslot) hacc.noLeaving
  | @handBack unstarted done | @beat ctx done => cases done <;> exact Or.inl hpos
  | _ => exact Or.inl hpos

end Process

/-! ## What the loop knows when it goes to sleep -/

namespace Sleeper

variable {s t : Sleeper} {a : SleeperAct} {c d : WorkerCall} {i : Nat}

/-- Something will wake the loop. -/
def Stirring (s : Sleeper) : Prop :=
  0 < s.call.process.outstanding ∨ (∃ i, s.owing i = true) ∨ s.generation ≠ s.seen

def Knows (s : Sleeper) : MainPc → Prop
  | .due nothingOutstanding => nothingOutstanding = false → s.Stirring
  | .forget => s.call.claimConn = false
  | .sleep => longSleep s.timeout = true →
      s.Stirring ∨ s.call.claimConn = false ∧ s.call.process.pool = none
  | _ => True

structure Inv (o : ProcessOptions) (s : Sleeper) : Prop where
  sound : s.call.Sound o
  tracked : s.call.process.Tracked
  owing : ∀ i, s.owing i = true → ∃ exit, s.call.process.slots[i]? = some (.finishing exit)
  seen : s.seen ≤ s.generation
  knows : s.Knows s.call.process.pc

theorem Knows.mono {pc : MainPc} (h : s.Knows pc) (hstir : s.Stirring → t.Stirring)
    (hclaim : pc.connects = false → s.call.claimConn = false → t.call.claimConn = false)
    (hpool : s.call.process.pool = none → t.call.process.pool = none)
    (htime : t.timeout = s.timeout) : t.Knows pc := by
  cases pc with
  | due nothingOutstanding => exact fun hnothing ↦ hstir (h hnothing)
  | forget => exact hclaim rfl h
  | sleep =>
      intro hlong
      rw [htime] at hlong
      exact (h hlong).imp hstir fun hletGo ↦ ⟨hclaim rfl hletGo.1, hpool hletGo.2⟩
  | _ => trivial

theorem looping_of_callStep {a : CallAct} (ha : CallStep o c a d)
    (hd : d.process.pc.looping = true) : c.process.pc.looping = true ∧ a ≠ .raise := by
  cases ha with
  | process ha => exact ⟨Process.looping_of_step ha hd, nofun⟩
  | raise => cases hd
  | leave hleft hpc =>
      rw [show c.process.pc = .returned from hpc] at hd
      cases hd
  | _ => exact ⟨hd, nofun⟩

-- A step does not take away what will wake the loop, unless the loop reads the generation anew.
theorem Inv.stirring {a : CallAct} (h : s.Inv o) (ha : CallStep o s.call a d)
    (hd : d.process.pc.looping = true)
    (hread : a = .process .main → s.call.process.pc.reads = false) (hstir : s.Stirring) :
    (s.after a d).Stirring := by
  have hs := (looping_of_callStep ha hd).1
  rcases hstir with hpos | ⟨i, howing⟩ | hgen
  · cases ha with
    | @process a p ha hconn =>
        rcases Process.outstanding_of_step (h.sound.accounted hs) ha hd hpos with
          hpos' | ⟨hzero, i, rfl⟩
        · exact Or.inl hpos'
        · refine Or.inr (Or.inl ⟨i, ?_⟩)
          change Function.update s.owing i (decide (p.outstanding = 0)) i = true
          rw [Function.update_self]
          exact decide_eq_true hzero
    | _ => exact Or.inl hpos
  · refine Or.inr (Or.inl ⟨i, ?_⟩)
    obtain ⟨exit, hslot⟩ := h.owing i howing
    cases ha with
    | @process a p ha hconn =>
        cases ha with
        | @finish j job pool exit' hj =>
            change Function.update s.owing j _ i = true
            rw [Function.update_of_ne, howing]
            rintro rfl
            cases hj.symm.trans hslot
        | _ => exact howing
    | _ => exact howing
  · refine Or.inr (Or.inr ?_)
    change s.generation ≠ _
    cases a with
    | process a =>
        cases a with
        | main =>
            change s.generation ≠ if s.call.process.pc.reads then s.generation else s.seen
            rw [hread rfl]
            exact hgen
        | _ => exact hgen
    | _ => exact hgen

-- The loop learns that something is outstanding before it asks when a job is due.
theorem Inv.knows_after {a : CallAct} (h : s.Inv o) (ha : CallStep o s.call a d)
    (hallows : s.allows a d) (hd : d.process.pc.looping = true) :
    (s.after a d).Knows d.process.pc := by
  have hs := (looping_of_callStep ha hd).1
  have hknows := h.knows
  have hstir := h.stirring ha hd
  cases ha with
  | @process a p ha hconn =>
      cases ha with
      | @main pc hm =>
          obtain ⟨hdue, -⟩ := hallows
          change (s.after _ _).Knows pc
          change ∀ b, s.call.process.pc = .due b → pc = .pause at hdue
          generalize s.call.process.pc = before at hm hdue
          cases hm with
          | nothing =>
              intro hnothing
              have hne := of_decide_eq_false hnothing
              have hnonneg := (h.sound.accounted hs).nonneg
              exact Or.inl (show 0 < s.call.process.outstanding by omega)
          | due => rw [hdue _ rfl]; trivial
          | poll hidle => cases hidle
          | _ => trivial
      | close => exact hallows
      | forget hpc =>
          intro _
          rw [hpc] at hknows
          exact Or.inr ⟨hknows, rfl⟩
      | claimed =>
          change (s.after _ _).Knows (if _ then _ else _)
          split <;> trivial
      | deadLetter | recover | claimedUnseen | hold | openPool | count | put | putAll => trivial
      | raise | drain | letGo | handBack | sentinels => cases hd
      | @beat ctx done =>
          cases done <;> exact hknows.mono (hstir nofun) (fun _ h ↦ h) (fun h ↦ h) rfl
      | _ => exact hknows.mono (hstir nofun) (fun _ h ↦ h) (fun h ↦ h) rfl
  | connectClaim hpc =>
      refine hknows.mono (hstir nofun) (fun hnot _ ↦ ?_) (fun h ↦ h) rfl
      cases hpc.symm.trans hnot
  | closeClaim => exact hknows.mono (hstir nofun) (fun _ _ ↦ rfl) (fun h ↦ h) rfl
  | raise => cases hd
  | leave hleft hpc =>
      rw [show s.call.process.pc = .returned from hpc] at hs
      cases hs
  | _ => exact hknows.mono (hstir nofun) (fun _ h ↦ h) (fun h ↦ h) rfl

theorem Inv.owing_after {a : CallAct} (h : s.Inv o) (ha : CallStep o s.call a d)
    (hallows : s.allows a d) (howing : (s.after a d).owing i = true) :
    ∃ exit, d.process.slots[i]? = some (.finishing exit) := by
  cases ha with
  | @process a p ha hconn =>
      by_cases hfinish : a = .finish i
      · subst hfinish
        cases ha with
        | @finish i job pool exit hslot =>
            obtain ⟨hlt, -⟩ := List.getElem?_eq_some_iff.mp hslot
            exact ⟨exit, List.getElem?_set_self hlt⟩
      · have hold : s.owing i = true := by
          cases a with
          | finish j =>
              change Function.update s.owing j _ i = true at howing
              rwa [Function.update_of_ne] at howing
              rintro rfl
              exact hfinish rfl
          | _ => exact howing
        obtain ⟨exit, hslot⟩ := h.owing i hold
        refine ⟨exit, Process.finishing_of_step ha hslot ?_⟩
        rintro rfl
        exact absurd (hallows.symm.trans hold) Bool.false_ne_true
  | _ => exact h.owing i howing

theorem Inv.call {a : CallAct} (h : s.Inv o) (ha : CallStep o s.call a d)
    (hallows : s.allows a d) (hd : d.process.pc.looping = true) : (s.after a d).Inv o := by
  obtain ⟨hs, hraise⟩ := looping_of_callStep ha hd
  refine ⟨h.sound.step ha hraise, ?_, fun i hi ↦ h.owing_after ha hallows hi, ?_,
    h.knows_after ha hallows hd⟩
  · cases ha with
    | process ha => exact h.tracked.step (h.sound.accounted hs) ha hd
    | raise => exact absurd rfl hraise
    | _ => exact h.tracked
  · cases a with
    | process a =>
        cases a with
        | main =>
            change (if s.call.process.pc.reads then s.generation else s.seen) ≤ s.generation
            split
            · exact le_rfl
            · exact h.seen
        | _ => exact h.seen
    | _ => exact h.seen

theorem Inv.due {now : Int} {nothingOutstanding : Bool} (h : s.Inv o)
    (hpc : s.call.process.pc = .due nothingOutstanding) (ha : CallStep o s.call (.process .main) d)
    (hto : d.process.pc =
      if nothingOutstanding && longSleep (sleepTimeout (s.call.process.jobs.secondsUntilDue now))
      then .close else .sleep) :
    Inv o
      { s with call := d, timeout := sleepTimeout (s.call.process.jobs.secondsUntilDue now) } := by
  have hd : d.process.pc.looping = true := by
    rw [hto]
    split <;> rfl
  have hs := (looping_of_callStep ha hd).1
  have hsound := h.sound.step ha nofun
  have hknows := h.knows
  rw [hpc] at hknows
  cases ha with
  | @process _ p ha hconn =>
      have htracked := h.tracked.step (h.sound.accounted hs) ha hd
      cases ha with
      | @main pc hm =>
          refine ⟨hsound, htracked, h.owing, h.seen, ?_⟩
          change Knows _ pc
          rw [show pc = _ from hto]
          split
          · trivial
          · rename_i hshort
            intro hlong
            refine Or.inl (hknows ?_)
            cases nothingOutstanding with
            | false => rfl
            | true => exact absurd hlong hshort

theorem Inv.wake (h : s.Inv o) (i : Nat) :
    Inv o { s with generation := s.generation + 1, owing := Function.update s.owing i false } := by
  have hseen := h.seen
  refine ⟨h.sound, h.tracked, fun j hj ↦ h.owing j ?_, Nat.le_succ_of_le hseen, ?_⟩
  · by_cases hji : j = i
    · subst hji
      change Function.update s.owing j false j = true at hj
      rw [Function.update_self] at hj
      cases hj
    · exact (Function.update_of_ne hji _ _).symm.trans hj
  · refine h.knows.mono (fun _ ↦ Or.inr (Or.inr ?_)) (fun _ h ↦ h) (fun h ↦ h) rfl
    change s.generation + 1 ≠ s.seen
    omega

theorem Inv.wakeup (h : s.Inv o) : Inv o { s with generation := s.generation + 1 } := by
  have hseen := h.seen
  refine ⟨h.sound, h.tracked, h.owing, Nat.le_succ_of_le hseen, ?_⟩
  refine h.knows.mono (fun _ ↦ Or.inr (Or.inr ?_)) (fun _ h ↦ h) (fun h ↦ h) rfl
  change s.generation + 1 ≠ s.seen
  omega

theorem inv_of_reachable (h : (sleeper o).Reachable s) (hs : s.call.process.pc.looping = true) :
    s.Inv o := by
  induction h with
  | init h =>
      obtain ⟨workerId, jobs, rfl⟩ := h
      refine ⟨WorkerCall.sound_start o workerId jobs, fun id hid ↦ ?_, nofun, le_rfl, trivial⟩
      cases hid
  | step _ ha ih =>
      cases ha with
      | call ha hallows => exact (ih (looping_of_callStep ha hs).1).call ha hallows hs
      | due hpc hconn ha hto => exact (ih (looping_of_callStep ha hs).1).due hpc ha hto
      | wake => exact (ih hs).wake _
      | wakeup => exact (ih hs).wakeup

/-! ## At rest -/

/-- Asleep without a job, and without a connection but the heartbeat's. -/
structure AtRest (s : Sleeper) : Prop where
  asleep : s.call.process.pc = .sleep
  outstanding : s.call.process.outstanding = 0
  map : ∀ id, s.call.process.deadlines.lookup id = none
  claimConn : s.call.claimConn = false
  pool : s.call.process.pool = none
  spare : s.call.spare = 0
  borrowers : s.call.borrowers = []

/-- No round of the heartbeat is under way that has found anything to extend. -/
def Quiet (s : Sleeper) : Prop := ∀ ids readAt, s.call.process.beat = some (ids, readAt) → ids = []

end Sleeper

/-- The statement is sent to the database. -/
def ProcessAct.asks : ProcessAct → Bool
  | deadLetter .. | recover .. | claim .. | complete .. | fail .. => true
  | handBack done | beat _ done => done
  | _ => false

namespace SleeperAct

/-- The worker uses the database, or connects to it. -/
def asks : SleeperAct → Bool
  | due _ | call .connectClaim | call .connectHeartbeat | call .poolConnect | call (.borrow _) =>
      true
  | call (.process a) => a.asks
  | _ => false

/-- The main loop goes on. -/
def wakes : SleeperAct → Bool
  | due _ | call (.process .main) | call .raise => true
  | _ => false

/-- A round of the heartbeat ends. -/
def beats : SleeperAct → Bool
  | call (.process (.beat ..)) => true
  | _ => false

end SleeperAct

namespace Sleeper

variable {s t : Sleeper} {a : SleeperAct}

theorem Inv.atRest (h : s.Inv o) (hsleep : s.call.process.pc = .sleep)
    (hclaim : s.call.claimConn = false) (hpool : s.call.process.pool = none) : s.AtRest := by
  have hacc := h.sound.accounted (by rw [hsleep]; rfl)
  have hzero : s.call.process.outstanding = 0 := by
    refine le_antisymm (not_lt.mp fun hpos ↦ ?_) hacc.nonneg
    obtain ⟨k, hk⟩ := hacc.opened (Or.inl hpos)
    cases hpool.symm.trans hk
  refine ⟨hsleep, hzero, h.tracked.lookup_none hacc hzero (by rw [hsleep]; rfl), hclaim, hpool,
    h.sound.spare ?_, List.eq_nil_iff_forall_not_mem.mpr fun b hb ↦ ?_⟩
  · rw [Process.poolOpen, hpool]
    rfl
  · obtain ⟨job, phase, hslot, -⟩ := h.sound.lent b hb
    have hpos := hacc.pos_of_busy hslot rfl
    omega

theorem AtRest.connections (h : s.AtRest) : s.call.connections = s.call.heartbeatConn.toNat := by
  rw [WorkerCall.connections, h.claimConn, h.spare, h.borrowers]
  simp

-- No slot does anything but go back to the queue, which is empty.
theorem AtRest.process {a : ProcessAct} {p : Process} (h : s.AtRest)
    (hacc : s.call.process.Accounted (s.call.options o)) (hquiet : s.Quiet)
    (ha : ProcessStep (s.call.options o) s.call.process a p) (hmain : a ≠ .main)
    (hraise : a ≠ .raise)
    (hbeat : ∀ ctx done, a = .beat ctx done →
      ∀ readAt, s.call.process.beat = some ([], readAt) → done = false) :
    a.asks = false ∧ p.pc = .sleep ∧ p.outstanding = 0 ∧ p.pool = none ∧
      (∀ id, p.deadlines.lookup id = none) ∧
      ∀ ids readAt, p.beat = some (ids, readAt) → ids = [] := by
  have hidle {i : Nat} {slot : SlotPc} (hslot : s.call.process.slots[i]? = some slot) :
      slot.busy ≠ 1 := fun hbusy ↦ (hacc.pos_of_busy hslot hbusy).ne' h.outstanding
  have hempty {item : Option ClaimedJob} {rest : List (Option ClaimedJob)} :
      s.call.process.ready ≠ item :: rest := by
    intro hready
    cases item with
    | none => exact hacc.noSentinel (hready ▸ List.mem_cons_self)
    | some job =>
        have hslots := total_nonneg (l := s.call.process.slots) fun x _ ↦ busy_nonneg x
        have hqueue := total_pos_of_mem (l := s.call.process.ready) (a := some job)
          (fun x _ ↦ queued_nonneg x) (hready ▸ List.mem_cons_self) Int.one_pos
        have hcounted := counted_nonneg s.call.process.pc
        have hbalance := hacc.balance
        have hzero := h.outstanding
        omega
  cases ha with
  | main => exact absurd rfl hmain
  | raise => exact absurd rfl hraise
  | deadLetter hpc | recover hpc | claimed hpc | claimedUnseen hpc | hold hpc | openPool hpc
  | count hpc | put hpc | putAll hpc | close hpc | forget hpc | drain hpc | letGo hpc
  | handBack hpc | sentinels hpc | stopBeat hpc => cases h.asleep.symm.trans hpc
  | take hslot hready | sentinel hslot hready => exact absurd hready hempty
  | enter hslot | start hslot | unregistered hslot | raises hslot | swallow hslot | complete hslot
  | fail hslot | unrecorded hslot | release hslot | finish hslot => exact absurd rfl (hidle hslot)
  | leave hslot => exact absurd (List.mem_of_getElem? hslot) hacc.noLeaving
  | look =>
      refine ⟨rfl, h.asleep, h.outstanding, h.pool, h.map, fun ids readAt hids ↦ ?_⟩
      obtain ⟨rfl, -⟩ := Prod.mk.inj (Option.some.inj hids)
      refine List.eq_nil_iff_forall_not_mem.mpr fun id hid ↦ ?_
      obtain ⟨deadline, hin, -⟩ := Deadlines.lookup_of_mem_live hid
      cases (h.map id).symm.trans hin
  | @beat ctx done ids readAt hround =>
      obtain rfl := hquiet ids readAt hround
      obtain rfl := hbeat ctx done rfl readAt hround
      exact ⟨rfl, h.asleep, h.outstanding, h.pool, h.map, nofun⟩
  | loop | setStop | tick | call =>
      exact ⟨rfl, h.asleep, h.outstanding, h.pool, h.map, hquiet⟩

/-- What stays so until the main loop goes on. -/
structure Resting (o : ProcessOptions) (s : Sleeper) : Prop where
  inv : s.Inv o
  rest : s.AtRest
  quiet : s.Quiet

theorem Resting.step (h : s.Resting o) (ha : SleeperStep o s a t) (hwakes : a.wakes = false) :
    a.asks = false ∧ t.Resting o ∧ (s.call.heartbeatConn = false ∨ a.beats = true →
      t.call.heartbeatConn = false) := by
  have hrest := h.rest
  have hlooping : s.call.process.pc.looping = true := by
    rw [hrest.asleep]
    rfl
  have hacc := h.inv.sound.accounted hlooping
  cases ha with
  | due => cases hwakes
  | wake =>
      exact ⟨rfl, ⟨h.inv.wake _, ⟨hrest.asleep, hrest.outstanding, hrest.map, hrest.claimConn,
        hrest.pool, hrest.spare, hrest.borrowers⟩, h.quiet⟩, fun hconn ↦ hconn.resolve_right nofun⟩
  | wakeup =>
      exact ⟨rfl, ⟨h.inv.wakeup, ⟨hrest.asleep, hrest.outstanding, hrest.map, hrest.claimConn,
        hrest.pool, hrest.spare, hrest.borrowers⟩, h.quiet⟩, fun hconn ↦ hconn.resolve_right nofun⟩
  | @call _ d ha hallows =>
      have hinv (hd : d.process.pc = .sleep) : (s.after _ d).Inv o :=
        h.inv.call ha hallows (by rw [hd]; rfl)
      cases ha with
      | @process a p ha hconn =>
          have hmain : a ≠ .main := by
            rintro rfl
            cases hwakes
          have hraise : a ≠ .raise := by
            rintro rfl
            exact hconn
          have hround (ctx : Ctx) (done : Bool) (hbeat : a = .beat ctx done) (readAt : Int)
              (hids : s.call.process.beat = some ([], readAt)) :
              done = false ∧ s.call.heartbeatConn = false := by
            subst hbeat
            exact hallows readAt hids
          obtain ⟨hasks, hpc, hout, hpool, hmap, hquiet⟩ := hrest.process hacc h.quiet ha hmain
            hraise fun ctx done hbeat readAt hids ↦ (hround ctx done hbeat readAt hids).1
          refine ⟨hasks, ⟨hinv hpc, ⟨hpc, hout, hmap, hrest.claimConn, hpool, ?_, hrest.borrowers⟩,
            hquiet⟩, fun hcase ↦ ?_⟩
          · change (if p.poolOpen then s.call.spare else 0) = 0
            rw [hrest.spare]
            exact ite_self _
          · rcases hcase with hclosed | hbeats
            · exact hclosed
            · cases ha with
              | @beat ctx done ids readAt hids =>
                  obtain rfl := h.quiet ids readAt hids
                  exact (hround ctx done rfl readAt hids).2
              | _ => cases hbeats
      | connectClaim hpc =>
          rw [hrest.asleep] at hpc
          cases hpc
      | connectHeartbeat hbeat =>
          obtain ⟨⟨ids, readAt⟩, hids⟩ := Option.ne_none_iff_exists'.mp hbeat
          obtain rfl := h.quiet ids readAt hids
          exact absurd hids (hallows readAt)
      | poolConnect hpool => cases hrest.pool.symm.trans hpool
      | borrow hslot hphase hpool => cases hrest.pool.symm.trans hpool
      | giveBack hlent =>
          rw [hrest.borrowers] at hlent
          cases hlent
      | raise => cases hwakes
      | leave hleft hpc => cases hrest.asleep.symm.trans hpc
      | closeClaim =>
          exact ⟨rfl, ⟨hinv hrest.asleep, ⟨hrest.asleep, hrest.outstanding, hrest.map, rfl,
            hrest.pool, hrest.spare, hrest.borrowers⟩, h.quiet⟩,
            fun hconn ↦ hconn.resolve_right nofun⟩
      | closeHeartbeat =>
          exact ⟨rfl, ⟨hinv hrest.asleep, ⟨hrest.asleep, hrest.outstanding, hrest.map,
            hrest.claimConn, hrest.pool, hrest.spare, hrest.borrowers⟩, h.quiet⟩, fun _ ↦ rfl⟩
      | poolDrop =>
          refine ⟨rfl, ⟨hinv hrest.asleep, ⟨hrest.asleep, hrest.outstanding, hrest.map,
            hrest.claimConn, hrest.pool, ?_, hrest.borrowers⟩, h.quiet⟩,
            fun hconn ↦ hconn.resolve_right nofun⟩
          change s.call.spare - 1 = 0
          rw [hrest.spare]

theorem Resting.run {as : List SleeperAct} (h : s.Resting o) (hrun : (sleeper o).Run s as t)
    (hwakes : ∀ a ∈ as, a.wakes = false) :
    (∀ a ∈ as, a.asks = false) ∧ t.Resting o ∧
      (s.call.heartbeatConn = false ∨ (∃ a ∈ as, a.beats = true) →
        t.call.heartbeatConn = false) := by
  induction hrun with
  | nil =>
      refine ⟨nofun, h, fun hconn ↦ hconn.resolve_right ?_⟩
      rintro ⟨a, ha, -⟩
      cases ha
  | @cons s u t a as ha _ ih =>
      obtain ⟨hasks, hu, hclosed⟩ := h.step ha (hwakes a List.mem_cons_self)
      obtain ⟨hasks', ht, hclosed'⟩ := ih hu fun b hb ↦ hwakes b (List.mem_cons_of_mem a hb)
      refine ⟨fun b hb ↦ ?_, ht, fun hcase ↦ hclosed' ?_⟩
      · rcases List.mem_cons.mp hb with rfl | hb
        · exact hasks
        · exact hasks' b hb
      · rcases hcase with hconn | ⟨b, hb, hbeats⟩
        · exact Or.inl (hclosed (Or.inl hconn))
        · rcases List.mem_cons.mp hb with rfl | hb
          · exact Or.inl (hclosed (Or.inr hbeats))
          · exact Or.inr ⟨b, hb, hbeats⟩

end Sleeper

/-- When an idle worker has gone to a long sleep and has not been woken, either a job is under way,
whose end will wake it, or it has let go of every connection but the heartbeat's.  Then it asks
nothing of the database until its loop goes on, once the heartbeat has done with what it had read
before, and the heartbeat's next round closes the last connection. -/
theorem idle_worker_rests {s : Sleeper} (h : (sleeper o).Reachable s)
    (hsleep : s.call.process.pc = .sleep) (hlong : longSleep s.timeout = true)
    (hseen : s.generation = s.seen) :
    (0 < s.call.process.outstanding ∨ ∃ i, s.owing i = true) ∨
      s.AtRest ∧ s.call.connections ≤ 1 ∧
        ∀ as t, (sleeper o).Run s as t → s.Quiet → (∀ a ∈ as, a.wakes = false) →
          (∀ a ∈ as, a.asks = false) ∧ t.AtRest ∧ t.call.connections ≤ s.call.connections ∧
            ((∃ a ∈ as, a.beats = true) → t.call.connections = 0) := by
  have hinv := Sleeper.inv_of_reachable h (by rw [hsleep]; rfl)
  have hknows := hinv.knows
  rw [hsleep] at hknows
  rcases hknows hlong with (hpos | howing | hgen) | ⟨hclaim, hpool⟩
  · exact Or.inl (Or.inl hpos)
  · exact Or.inl (Or.inr howing)
  · exact absurd hseen hgen
  · have hrest := hinv.atRest hsleep hclaim hpool
    refine Or.inr ⟨hrest, ?_, fun as t hrun hquiet hwakes ↦ ?_⟩
    · rw [hrest.connections]
      exact Bool.toNat_le _
    · have hresting : s.Resting o := ⟨hinv, hrest, hquiet⟩
      obtain ⟨hasks, ht, hclosed⟩ := hresting.run hrun hwakes
      refine ⟨hasks, ht.rest, ?_, fun hbeats ↦ ?_⟩
      · rw [hrest.connections, ht.rest.connections]
        cases hconn : s.call.heartbeatConn with
        | false => rw [hclosed (Or.inl hconn)]
        | true => exact Bool.toNat_le _
      · rw [ht.rest.connections, hclosed (Or.inr hbeats)]
        rfl

-- A worker that has run the one job there was, with a round of its heartbeat meanwhile, goes to
-- sleep until it is woken.
theorem asleep_reachable :
    ∃ s, (sleeper single).Reachable s ∧ s.call.process.pc = .sleep ∧ s.timeout = none ∧
      s.generation = s.seen ∧ s.call.process.outstanding = 0 ∧ (∀ i, s.owing i = false) ∧
      s.call.process.beat = none ∧ s.call.process.stopped = false ∧
      s.call.heartbeatConn = true ∧
      (s.call.process.jobs.row 1).map Job.status = some .succeeded := by
  have hstart : (sleeper single).Reachable (.start single "w" .empty) := .init ⟨_, _, rfl⟩
  let job : ClaimedJob := ⟨1, "t", ""⟩
  have hrun : ∃ as s, (sleeper single).Run (.start single "w" .empty) as s ∧
      s.call.process.pc = .sleep ∧ s.timeout = none ∧
      s.generation = s.seen ∧ s.call.process.outstanding = 0 ∧ (∀ i, s.owing i = false) ∧
      s.call.process.beat = none ∧ s.call.process.stopped = false ∧
      s.call.heartbeatConn = true ∧
      (s.call.process.jobs.row 1).map Job.status = some .succeeded :=
    ⟨_, _, .cons (.call (.process (@ProcessStep.call _ _ ⟨.alone 0, .enqueue "t" "" none⟩) trivial)
        trivial) <|
      .cons (.call (.process (.main (.go rfl)) trivial) ⟨nofun, nofun⟩) <|
      .cons (.call (.process (.main .skipSweep) trivial) ⟨nofun, nofun⟩) <|
      .cons (.call (.process (.main (.capacity (Or.inl (by decide)))) trivial) ⟨nofun, nofun⟩) <|
      .cons (.call (.process (.main (.goAgain rfl)) trivial) ⟨nofun, nofun⟩) <|
      .cons (.call (.process (@ProcessStep.claimed _ _ (.alone 0) _ _ _ rfl rfl) rfl) trivial) <|
      .cons (.call (.process (@ProcessStep.hold _ _ [job] rfl) trivial) trivial) <|
      .cons (.call (.process (@ProcessStep.openPool _ _ [job] rfl) trivial) trivial) <|
      .cons (.call (.process (@ProcessStep.count _ _ [job] rfl) trivial) trivial) <|
      .cons (.call (.process (@ProcessStep.put _ _ job [] rfl) trivial) trivial) <|
      .cons (.call (.process (.putAll rfl) trivial) trivial) <|
      .cons (.call (.process (@ProcessStep.take _ _ 0 job [] rfl rfl) trivial) trivial) <|
      .cons (.call (.process (@ProcessStep.enter _ _ 0 job rfl) trivial) trivial) <|
      .cons (.call (.process (@ProcessStep.start _ _ 0 job (some 0) (seconds 300) rfl rfl) trivial)
        trivial) <|
      .cons (.call (.process (.look rfl rfl) trivial) trivial) <|
      .cons (.call (.connectHeartbeat nofun) nofun) <|
      .cons (.call (.process (@ProcessStep.beat _ _ (.alone 0) true [1] 0 rfl) rfl) nofun) <|
      .cons (.call (@CallStep.poolConnect _ _ 0 rfl (by decide)) trivial) <|
      .cons (.call (@CallStep.borrow _ _ 0 0 job (.executing (seconds 300)) rfl rfl rfl (by decide)
        List.not_mem_nil) trivial) <|
      .cons (.call (.process (@ProcessStep.complete _ _ 0 job (some 0) (seconds 300) (.alone 0) true
        rfl) (List.mem_singleton_self 0)) trivial) <|
      .cons (.call (@CallStep.giveBack _ _ 0 0 (List.mem_singleton_self _)) trivial) <|
      .cons (.call (.process (@ProcessStep.release _ _ 0 job (some 0) (some (seconds 300)) .returned
        rfl) List.not_mem_nil) trivial) <|
      .cons (.call (.process (@ProcessStep.finish _ _ 0 job (some 0) .returned rfl) trivial)
        trivial) <|
      .cons (@SleeperStep.wake _ _ 0 rfl) <|
      .cons (.call (.process (@ProcessStep.loop _ _ 0 .returned rfl) trivial) rfl) <|
      .cons (.call (.process (.main (.go rfl)) trivial) ⟨nofun, nofun⟩) <|
      .cons (.call (.process (.main .skipSweep) trivial) ⟨nofun, nofun⟩) <|
      .cons (.call (.process (.main (.capacity (Or.inl (by decide)))) trivial) ⟨nofun, nofun⟩) <|
      .cons (.call (.process (.main (.goAgain rfl)) trivial) ⟨nofun, nofun⟩) <|
      .cons (.call (.process (@ProcessStep.claimed _ _ (.alone 0) _ _ _ rfl rfl) rfl) trivial) <|
      .cons (.call (.process (.main .nothing) trivial) ⟨nofun, nofun⟩) <|
      .cons (@SleeperStep.due _ _ _ 0 _ rfl rfl
        (.process (.main (@MainMove.due _ _ _ 0 rfl)) trivial) rfl) <|
      .cons (.call .closeClaim trivial) <|
      .cons (.call (.process (.close rfl) trivial) rfl) <|
      .cons (.call (.process (.forget rfl) trivial) trivial) <| .nil _,
      rfl, rfl, rfl, rfl, fun i ↦ by cases i <;> rfl, rfl, rfl, rfl, rfl⟩
  obtain ⟨as, s, hrun, hrest⟩ := hrun
  exact ⟨s, hrun.reachable hstart, hrest⟩

-- The heartbeat's connection is the one that is left, until its next round.
theorem idle_worker_rests_round :
    ∃ s t, (sleeper single).Run s
        [.call (.process .look), .call .closeHeartbeat, .call (.process (.beat (.alone 0) false))]
        t ∧
      s.AtRest ∧ s.call.connections = 1 ∧ t.AtRest ∧ t.call.connections = 0 ∧
      (s.call.process.jobs.row 1).map Job.status = some .succeeded := by
  obtain ⟨s, hs, hsleep, htimeout, hgen, hzero, howing, hbeat, hstopped, hconn, hjob⟩ :=
    asleep_reachable
  have hlong : longSleep s.timeout = true := by
    rw [htimeout]
    rfl
  rcases idle_worker_rests hs hsleep hlong hgen with (hpos | ⟨i, hi⟩) | ⟨hrest, -, hrun⟩
  · omega
  · cases (howing i).symm.trans hi
  · have hone : s.call.connections = 1 := by
      rw [hrest.connections, hconn]
      rfl
    have hround : (sleeper single).Run s
        [.call (.process .look), .call .closeHeartbeat, .call (.process (.beat (.alone 0) false))]
        _ :=
      .cons (.call (.process (.look hbeat hstopped) trivial) trivial) <|
        .cons (.call .closeHeartbeat trivial) <|
        .cons (.call (.process (.beat rfl) trivial) fun _ _ ↦ ⟨rfl, rfl⟩) <| .nil _
    have hquiet : s.Quiet := by
      intro ids readAt hids
      cases hbeat.symm.trans hids
    obtain ⟨-, ht, -, hclosed⟩ := hrun _ _ hround hquiet (by decide)
    have hlast : ∃ a ∈ ([.call (.process .look), .call .closeHeartbeat,
        .call (.process (.beat (.alone 0) false))] : List SleeperAct), a.beats = true :=
      ⟨_, List.mem_cons_of_mem _ (List.mem_cons_of_mem _ List.mem_cons_self), rfl⟩
    exact ⟨s, _, hround, hrest, hone, ht, hclosed hlast, hjob⟩

end DurableQueue
