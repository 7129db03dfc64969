import DurableQueue.Reasoning.Totals
import DurableQueue.Worker.Process

/-!
# Accounting

While the main loop runs, `outstanding` counts the claimed jobs that are in the queue or with a
slot, it stays within its bound, and the slots' pool is open as long as it is not 0.
-/

open Reasoning

namespace DurableQueue

/-- A slot that has taken a job and not finished it. -/
def SlotPc.busy : SlotPc → Int
  | taken _ | running .. => 1
  | _ => 0

/-- A job in the queue, the sentinel being none. -/
def queued (item : Option ClaimedJob) : Int := if item.isSome then 1 else 0

/-- The jobs that are counted and not yet put. -/
def MainPc.counted : MainPc → Int
  | put batch => batch.length
  | _ => 0

/-- What the loop knows at each point about the counter, the pool and `stop`. -/
def MainPc.Knows (o : ProcessOptions) (outstanding : Int) (stop : Bool) : MainPc → Prop
  | testAgain room => room ≤ o.maxOutstanding - outstanding ∧ (1 ≤ room ∨ stop = true)
  | claim room => 1 ≤ room ∧ room ≤ o.maxOutstanding - outstanding
  | hold batch | openPool batch | count batch => batch.length ≤ o.maxOutstanding - outstanding
  | due nothingOutstanding => nothingOutstanding = true → outstanding = 0
  | close | forget => outstanding = 0
  | _ => True

/-- A running slot has the pool that is open. -/
def SlotPc.Pooled (pool : Option SlotPool) : SlotPc → Prop
  | running _ p _ => ∃ k, p = some k ∧ pool = some ⟨k, true⟩
  | _ => True

theorem busy_nonneg (slot : SlotPc) : 0 ≤ slot.busy := by
  cases slot <;> simp [SlotPc.busy]

theorem queued_nonneg (item : Option ClaimedJob) : 0 ≤ queued item := by
  cases item <;> simp [queued]

theorem counted_nonneg (pc : MainPc) : 0 ≤ pc.counted := by
  cases pc <;> simp [MainPc.counted]

variable {o : ProcessOptions}

-- Nothing that the loop has learnt is undone by a slot that finishes, or by `stop`.
theorem MainPc.Knows.finish {pc : MainPc} {outstanding : Int} {stop : Bool}
    (h : pc.Knows o outstanding stop) (hpos : 0 < outstanding) :
    pc.Knows o (outstanding - 1) stop := by
  cases pc with
  | testAgain room => exact ⟨by have := h.1; omega, h.2⟩
  | claim room => exact ⟨h.1, by have := h.2; omega⟩
  | hold batch | openPool batch | count batch =>
      have hroom : (batch.length : Int) ≤ o.maxOutstanding - outstanding := h
      change (batch.length : Int) ≤ o.maxOutstanding - (outstanding - 1)
      omega
  | due nothingOutstanding => exact fun hnothing ↦ absurd (h hnothing) hpos.ne'
  | close | forget => exact absurd h hpos.ne'
  | _ => trivial

theorem MainPc.Knows.setStop {pc : MainPc} {outstanding : Int} {stop : Bool}
    (h : pc.Knows o outstanding stop) : pc.Knows o outstanding true := by
  cases pc with
  | testAgain room => exact ⟨h.1, Or.inr rfl⟩
  | _ => exact h

namespace Process

structure Accounted (o : ProcessOptions) (s : Process) : Prop where
  balance : s.outstanding = total queued s.ready + total SlotPc.busy s.slots + s.pc.counted
  bounded : s.outstanding ≤ o.maxOutstanding
  knows : s.pc.Knows o s.outstanding s.stop
  opened : (0 < s.outstanding ∨ ∃ batch, s.pc = .count batch) → ∃ k, s.pool = some ⟨k, true⟩
  closed : ∀ k, s.pool = some ⟨k, false⟩ → s.pc = .forget
  pooled : ∀ slot ∈ s.slots, slot.Pooled s.pool
  noSentinel : none ∉ s.ready
  noLeaving : SlotPc.leaving ∉ s.slots

variable {s t : Process} {a : ProcessAct} {i : Nat} {old new : SlotPc}

theorem Accounted.nonneg (h : s.Accounted o) : 0 ≤ s.outstanding := by
  have hready := total_nonneg (l := s.ready) fun x _ ↦ queued_nonneg x
  have hslots := total_nonneg (l := s.slots) fun x _ ↦ busy_nonneg x
  have hpc := counted_nonneg s.pc
  rw [h.balance]
  omega

-- A busy slot keeps the counter from 0.
theorem Accounted.pos_of_busy (h : s.Accounted o) (hslot : s.slots[i]? = some old)
    (hbusy : old.busy = 1) : 0 < s.outstanding := by
  have hready := total_nonneg (l := s.ready) fun x _ ↦ queued_nonneg x
  have hslots := le_total (fun x _ ↦ busy_nonneg x) hslot
  have hpc := counted_nonneg s.pc
  rw [h.balance]
  omega

-- What the place of the main loop says.
theorem Accounted.knows_at {pc : MainPc} (h : s.Accounted o) (hpc : s.pc = pc) :
    pc.Knows o s.outstanding s.stop := by
  rw [← hpc]
  exact h.knows

theorem Accounted.balance_at {pc : MainPc} (h : s.Accounted o) (hpc : s.pc = pc) :
    s.outstanding = total queued s.ready + total SlotPc.busy s.slots + pc.counted := by
  rw [← hpc]
  exact h.balance

theorem Accounted.not_closed (h : s.Accounted o) (hpc : s.pc ≠ .forget) (k : Nat) :
    s.pool ≠ some ⟨k, false⟩ :=
  fun hk ↦ hpc (h.closed k hk)

theorem Accounted.pooled_set (h : s.Accounted o) (i : Nat) (hnew : new.Pooled s.pool) :
    ∀ slot ∈ s.slots.set i new, slot.Pooled s.pool := by
  intro slot hmem
  rcases List.mem_or_eq_of_mem_set hmem with hold | rfl
  · exact h.pooled slot hold
  · exact hnew

theorem accounted_start (o : ProcessOptions) (jobs : Jobs) : (start o jobs).Accounted o := by
  have hidle : total SlotPc.busy (start o jobs).slots = 0 := by
    simp [start, total, SlotPc.busy]
  refine ⟨?_, Int.natCast_nonneg _, trivial, ?_, ?_, ?_, List.not_mem_nil, ?_⟩
  · rw [hidle]
    rfl
  · rintro (hpos | ⟨batch, hpc⟩)
    · exact absurd hpos (by simp [start])
    · cases hpc
  · intro k hk
    cases hidle : o.idle <;> simp [start, hidle] at hk
  · intro slot hslot
    rw [List.eq_of_mem_replicate hslot]
    trivial
  · intro hslot
    cases List.eq_of_mem_replicate hslot

/-! ## Kinds of steps -/

-- A slot that goes on with what it has.
theorem Accounted.setSlot (h : s.Accounted o) (hslot : s.slots[i]? = some old)
    (hbusy : new.busy = old.busy) (hpooled : new.Pooled s.pool) (hnew : new ≠ .leaving) :
    (s.setSlot i new).Accounted o := by
  refine ⟨?_, h.bounded, h.knows, h.opened, h.closed, h.pooled_set i hpooled, h.noSentinel,
    noLeaving_set h.noLeaving hnew⟩
  change s.outstanding =
    total queued s.ready + total SlotPc.busy (s.slots.set i new) + s.pc.counted
  rw [total_set hslot, hbusy, h.balance]
  omega

theorem Accounted.keeps_pool {job : ClaimedJob} {pool : Option Nat} {phase : RunPhase}
    (h : s.Accounted o) (hslot : s.slots[i]? = some (.running job pool phase)) (phase' : RunPhase) :
    (SlotPc.running job pool phase').Pooled s.pool := by
  have hpooled : (SlotPc.running job pool phase).Pooled s.pool :=
    h.pooled _ (List.mem_of_getElem? hslot)
  exact hpooled

theorem Accounted.take (h : s.Accounted o) {job : ClaimedJob} {rest : List (Option ClaimedJob)}
    (hslot : s.slots[i]? = some .waiting) (hready : s.ready = some job :: rest) :
    ({ s with ready := rest }.setSlot i (.taken job)).Accounted o := by
  refine ⟨?_, h.bounded, h.knows, h.opened, h.closed, h.pooled_set i trivial, fun hmem ↦ ?_,
    noLeaving_set h.noLeaving nofun⟩
  · change s.outstanding =
      total queued rest + total SlotPc.busy (s.slots.set i (.taken job)) + s.pc.counted
    have hbalance := h.balance
    rw [hready, total_cons] at hbalance
    rw [total_set hslot, hbalance]
    simp only [queued, SlotPc.busy, Option.isSome_some, if_true]
    omega
  · exact h.noSentinel (hready ▸ List.mem_cons_of_mem _ hmem)

-- The counter may reach 0 here; it is the main loop alone that raises it.
theorem Accounted.finish (h : s.Accounted o) {job : ClaimedJob} {pool : Option Nat} {exit : Exit}
    (hslot : s.slots[i]? = some (.running job pool (.released exit))) :
    ({ s with outstanding := s.outstanding - 1 }.setSlot i (.finishing exit)).Accounted o := by
  have hpos := h.pos_of_busy hslot rfl
  refine ⟨?_, ?_, h.knows.finish hpos, fun _ ↦ h.opened (Or.inl hpos), h.closed,
    h.pooled_set i trivial, h.noSentinel, noLeaving_set h.noLeaving nofun⟩
  · change s.outstanding - 1 =
      total queued s.ready + total SlotPc.busy (s.slots.set i (.finishing exit)) + s.pc.counted
    rw [total_set hslot, h.balance]
    simp only [SlotPc.busy]
    omega
  · have hbounded := h.bounded
    change s.outstanding - 1 ≤ o.maxOutstanding
    omega

-- Other parts of the state do not matter.
theorem Accounted.of_same (h : s.Accounted o) (hout : t.outstanding = s.outstanding)
    (hready : t.ready = s.ready) (hslots : t.slots = s.slots) (hpool : t.pool = s.pool)
    (hpc : t.pc = s.pc) (hstop : t.stop = s.stop) : t.Accounted o := by
  obtain ⟨hbalance, hbounded, hknows, hopened, hclosed, hpooled, hsentinel, hleaving⟩ := h
  refine ⟨?_, ?_, ?_, ?_, ?_, ?_, ?_, ?_⟩
  · rw [hout, hready, hslots, hpc]
    exact hbalance
  · rw [hout]
    exact hbounded
  · rw [hpc, hout, hstop]
    exact hknows
  · rw [hout, hpc, hpool]
    exact hopened
  · rw [hpool, hpc]
    exact hclosed
  · rw [hslots, hpool]
    exact hpooled
  · rw [hready]
    exact hsentinel
  · rw [hslots]
    exact hleaving

-- The main loop moves on, with nothing counted and no pool at stake.
theorem Accounted.goto (h : s.Accounted o) {before : MainPc} (hpc : s.pc = before) (pc : MainPc)
    (hfrom : before.counted = 0 ∧ before ≠ .forget)
    (hto : pc.counted = 0 ∧ ∀ batch, pc ≠ .count batch)
    (hknows : pc.Knows o s.outstanding s.stop) : Accounted o { s with pc := pc } := by
  rw [← hpc] at hfrom
  refine ⟨?_, h.bounded, hknows, ?_, ?_, h.pooled, h.noSentinel, h.noLeaving⟩
  · change s.outstanding = total queued s.ready + total SlotPc.busy s.slots + pc.counted
    rw [h.balance, hfrom.1, hto.1]
  · rintro (hpos | ⟨batch, hcount⟩)
    · exact h.opened (Or.inl hpos)
    · exact absurd hcount (hto.2 batch)
  · exact fun k hk ↦ absurd (h.closed k hk) hfrom.2

theorem Accounted.enter (h : s.Accounted o) {job : ClaimedJob}
    (hslot : s.slots[i]? = some (.taken job)) :
    (s.setSlot i (.running job (s.pool.map (·.number)) .entered)).Accounted o := by
  -- the job that it has taken keeps the pool open
  obtain ⟨k, hk⟩ := h.opened (Or.inl (h.pos_of_busy hslot rfl))
  refine h.setSlot hslot rfl ⟨k, ?_, hk⟩ nofun
  rw [hk]
  rfl

theorem SlotPc.Pooled.mono {slot : SlotPc} {pool pool' : Option SlotPool} (h : slot.Pooled pool)
    (hpool : ∀ k, pool = some ⟨k, true⟩ → pool' = some ⟨k, true⟩) : slot.Pooled pool' := by
  cases slot with
  | running job p phase =>
      obtain ⟨k, hp, hk⟩ := h
      exact ⟨k, hp, hpool k hk⟩
  | _ => trivial

theorem Accounted.openPool (h : s.Accounted o) {batch : List ClaimedJob}
    (hpc : s.pc = .openPool batch) :
    Accounted o
      { s with
        pool := if s.pool = none then some ⟨s.pools, true⟩ else s.pool
        pools := if s.pool = none then s.pools + 1 else s.pools
        pc := .count batch } := by
  have hnotForget : s.pc ≠ .forget := by
    rw [hpc]
    exact nofun
  -- there is no closed pool here
  have hopen : ∃ k, (if s.pool = none then some ⟨s.pools, true⟩ else s.pool) =
      some (⟨k, true⟩ : SlotPool) := by
    by_cases hnone : s.pool = none
    · exact ⟨s.pools, if_pos hnone⟩
    · obtain ⟨⟨k, opened⟩, hk⟩ := Option.ne_none_iff_exists'.mp hnone
      cases opened with
      | true => exact ⟨k, (if_neg hnone).trans hk⟩
      | false => exact absurd hk (h.not_closed hnotForget k)
  have hbalance := h.balance_at hpc
  have hknows := h.knows_at hpc
  refine ⟨hbalance, h.bounded, hknows, fun _ ↦ hopen, fun k hk ↦ ?_, fun slot hslot ↦ ?_,
    h.noSentinel, h.noLeaving⟩
  · obtain ⟨k', hk'⟩ := hopen
    cases hk'.symm.trans hk
  · refine SlotPc.Pooled.mono (h.pooled slot hslot) fun k hk ↦ ?_
    rw [if_neg (by rw [hk]; exact nofun)]
    exact hk

theorem Accounted.count (h : s.Accounted o) {batch : List ClaimedJob} (hpc : s.pc = .count batch) :
    Accounted o { s with outstanding := s.outstanding + batch.length, pc := .put batch } := by
  have hopened := h.opened (Or.inr ⟨batch, hpc⟩)
  have hroom : (batch.length : Int) ≤ o.maxOutstanding - s.outstanding := h.knows_at hpc
  refine ⟨?_, ?_, trivial, fun _ ↦ hopened, fun k hk ↦ ?_, h.pooled, h.noSentinel, h.noLeaving⟩
  · change s.outstanding + batch.length =
      total queued s.ready + total SlotPc.busy s.slots + batch.length
    rw [h.balance_at hpc]
    simp only [MainPc.counted]
    omega
  · change s.outstanding + batch.length ≤ o.maxOutstanding
    omega
  · obtain ⟨k', hk'⟩ := hopened
    cases hk'.symm.trans hk

theorem Accounted.put (h : s.Accounted o) {job : ClaimedJob} {batch : List ClaimedJob}
    (hpc : s.pc = .put (job :: batch)) :
    Accounted o { s with ready := s.ready ++ [some job], pc := .put batch } := by
  have hnotForget : s.pc ≠ .forget := by
    rw [hpc]
    exact nofun
  refine ⟨?_, h.bounded, trivial, ?_, fun k hk ↦ absurd hk (h.not_closed hnotForget k), h.pooled,
    fun hmem ↦ ?_, h.noLeaving⟩
  · change s.outstanding =
      total queued (s.ready ++ [some job]) + total SlotPc.busy s.slots + batch.length
    rw [h.balance_at hpc, total_append, total_cons, total_nil]
    simp only [MainPc.counted, queued, List.length_cons, Option.isSome_some, if_true]
    push_cast
    omega
  · rintro (hpos | ⟨batch', hcount⟩)
    · exact h.opened (Or.inl hpos)
    · cases hcount
  · rcases List.mem_append.mp hmem with hold | hnew
    · exact h.noSentinel hold
    · cases List.mem_singleton.mp hnew

-- Nothing is outstanding, so no slot has a job and none has the pool.
theorem Accounted.pooled_of_zero (h : s.Accounted o) (hzero : s.outstanding = 0)
    (pool : Option SlotPool) : ∀ slot ∈ s.slots, slot.Pooled pool := by
  intro slot hmem
  obtain ⟨i, hslot⟩ := List.mem_iff_getElem?.mp hmem
  cases slot with
  | running job p phase =>
      have hpos := h.pos_of_busy hslot rfl
      omega
  | _ => trivial

theorem Accounted.close (h : s.Accounted o) (hpc : s.pc = .close) :
    Accounted o { s with pool := s.pool.map ({ · with opened := false }), pc := .forget } := by
  have hbalance := h.balance_at hpc
  have hzero : s.outstanding = 0 := h.knows_at hpc
  refine ⟨hbalance, h.bounded, hzero, ?_, fun _ _ ↦ rfl, h.pooled_of_zero hzero _, h.noSentinel,
    h.noLeaving⟩
  rintro (hpos | ⟨batch, hcount⟩)
  · exact absurd hzero hpos.ne'
  · cases hcount

theorem Accounted.forget (h : s.Accounted o) (hpc : s.pc = .forget) :
    Accounted o { s with pool := none, pc := .sleep } := by
  have hbalance := h.balance_at hpc
  have hzero : s.outstanding = 0 := h.knows_at hpc
  refine ⟨hbalance, h.bounded, trivial, ?_, nofun, h.pooled_of_zero hzero _, h.noSentinel,
    h.noLeaving⟩
  rintro (hpos | ⟨batch, hcount⟩)
  · exact absurd hzero hpos.ne'
  · cases hcount

theorem length_claimJobs (t : Jobs) (ctx : Ctx) (w : WorkerId) (lease : Int) (batch : Nat) :
    (t.claimJobs ctx w lease batch).2.length ≤ batch := by
  rw [(t.claimJobs_perm ctx w lease batch).length_eq, List.length_map]
  exact List.length_take_le _ _

theorem looping_of_move {pc pc' : MainPc} (h : MainMove o s pc pc') (hto : pc'.looping = true) :
    pc.looping = true := by
  cases h with
  | loseConnection hpc =>
      cases pc <;> first | rfl | cases hpc
  | drained | joined => cases hto
  | _ => rfl

theorem looping_of_step (ha : ProcessStep o s a t) (ht : t.pc.looping = true) :
    s.pc.looping = true := by
  cases ha with
  | main hm => exact looping_of_move hm ht
  | raise | drain | letGo | handBack | sentinels => cases ht
  | deadLetter hpc | recover hpc | claimed hpc | claimedUnseen hpc | hold hpc | openPool hpc
  | count hpc | put hpc | putAll hpc | close hpc | forget hpc =>
      rw [hpc]
      rfl
  | @beat ctx done => cases done <;> exact ht
  | _ => exact ht

theorem Accounted.move (h : s.Accounted o) {pc : MainPc} (hm : MainMove o s s.pc pc)
    (hto : pc.looping = true) : Accounted o { s with pc := pc } := by
  have hknows := h.knows
  generalize hpc : s.pc = before at hm hknows
  cases hm with
  | stop | stopAgain | drained | joined => cases hto
  | go | skipSweep | poll | slept | loseNotify | resume =>
      exact h.goto hpc _ ⟨rfl, nofun⟩ ⟨rfl, nofun⟩ trivial
  | capacity hroom =>
      refine h.goto hpc _ ⟨rfl, nofun⟩ ⟨rfl, nofun⟩ ⟨Int.le_refl _, ?_⟩
      exact hroom.imp (fun hless ↦ by omega) id
  | @goAgain room hstop =>
      have hknows : room ≤ o.maxOutstanding - s.outstanding ∧ (1 ≤ room ∨ s.stop = true) :=
        hknows
      refine h.goto hpc _ ⟨rfl, nofun⟩ ⟨rfl, nofun⟩ ⟨hknows.2.resolve_right ?_, hknows.1⟩
      rw [hstop]
      exact Bool.false_ne_true
  | nothing => exact h.goto hpc _ ⟨rfl, nofun⟩ ⟨rfl, nofun⟩ of_decide_eq_true
  | @due nothingOutstanding now hidle =>
      split
      · rename_i hclose
        rw [Bool.and_eq_true] at hclose
        exact h.goto hpc _ ⟨rfl, nofun⟩ ⟨rfl, nofun⟩ (hknows hclose.1)
      · exact h.goto hpc _ ⟨rfl, nofun⟩ ⟨rfl, nofun⟩ trivial
  | loseConnection hguarded =>
      refine h.goto hpc _ ⟨?_, ?_⟩ ⟨rfl, nofun⟩ trivial
      · cases before <;> first | rfl | cases hguarded
      · rintro rfl
        cases hguarded

theorem Accounted.step (h : s.Accounted o) (ha : ProcessStep o s a t) (hs : s.pc.looping = true)
    (ht : t.pc.looping = true) : t.Accounted o := by
  cases ha with
  | main hm => exact h.move hm ht
  | deadLetter hpc =>
      exact (h.goto hpc .recover ⟨rfl, nofun⟩ ⟨rfl, nofun⟩ trivial).of_same rfl rfl rfl rfl rfl rfl
  | recover hpc =>
      exact (h.goto hpc .capacity ⟨rfl, nofun⟩ ⟨rfl, nofun⟩ trivial).of_same rfl rfl rfl rfl rfl rfl
  | @claimed ctx room jobs rows hpc hclaim =>
      by_cases hrows : rows = []
      · rw [if_pos hrows]
        exact (h.goto hpc .nothing ⟨rfl, nofun⟩ ⟨rfl, nofun⟩ trivial).of_same
          rfl rfl rfl rfl rfl rfl
      · rw [if_neg hrows]
        refine (h.goto hpc (.hold (batchOf rows)) ⟨rfl, nofun⟩ ⟨rfl, nofun⟩ ?_).of_same
          rfl rfl rfl rfl rfl rfl
        -- no more rows than have been asked for
        have hlen := length_claimJobs s.jobs ctx o.workerId o.leaseSeconds
          (min room o.claimBatch).toNat
        rw [hclaim] at hlen
        obtain ⟨hpos, hroom⟩ : 1 ≤ room ∧ room ≤ o.maxOutstanding - s.outstanding :=
          h.knows_at hpc
        change ((batchOf rows).length : Int) ≤ o.maxOutstanding - s.outstanding
        rw [batchOf, List.length_map]
        have hlen : rows.length ≤ (min room o.claimBatch).toNat := hlen
        omega
  | claimedUnseen hpc hclaim =>
      exact (h.goto hpc .pause ⟨rfl, nofun⟩ ⟨rfl, nofun⟩ trivial).of_same rfl rfl rfl rfl rfl rfl
  | @hold batch hpc =>
      have hknows := h.knows_at hpc
      exact (h.goto hpc (.openPool batch) ⟨rfl, nofun⟩ ⟨rfl, nofun⟩ hknows).of_same
        rfl rfl rfl rfl rfl rfl
  | openPool hpc => exact h.openPool hpc
  | count hpc => exact h.count hpc
  | put hpc => exact h.put hpc
  | putAll hpc => exact h.goto hpc .test ⟨rfl, nofun⟩ ⟨rfl, nofun⟩ trivial
  | close hpc => exact h.close hpc
  | forget hpc => exact h.forget hpc
  | raise | drain | letGo | sentinels => cases ht
  | handBack hpc =>
      rw [hpc] at hs
      cases hs
  | take hslot hready => exact h.take hslot hready
  | enter hslot => exact h.enter hslot
  | start hslot | complete hslot | fail hslot | release hslot =>
      exact Accounted.setSlot (h.of_same rfl rfl rfl rfl rfl rfl) hslot rfl (h.keeps_pool hslot _)
        nofun
  | unregistered hslot | raises hslot | swallow hslot | unrecorded hslot =>
      exact h.setSlot hslot rfl (h.keeps_pool hslot _) nofun
  | finish hslot => exact h.finish hslot
  | @loop i exit hslot =>
      by_cases hexit : exit = .raised false
      · rw [if_pos hexit]
        exact h.setSlot hslot rfl trivial nofun
      · rw [if_neg hexit]
        exact h.setSlot hslot rfl trivial nofun
  | sentinel hslot hready => exact absurd (hready ▸ List.mem_cons_self) h.noSentinel
  | leave hslot => exact absurd (List.mem_of_getElem? hslot) h.noLeaving
  | look | stopBeat | tick | call => exact h.of_same rfl rfl rfl rfl rfl rfl
  | @beat ctx done ids readAt hbeat =>
      cases done <;> exact h.of_same rfl rfl rfl rfl rfl rfl
  | setStop =>
      exact ⟨h.balance, h.bounded, h.knows.setStop, h.opened, h.closed, h.pooled, h.noSentinel,
        h.noLeaving⟩

theorem accounted_of_reachable (h : (process o).Reachable s) (hs : s.pc.looping = true) :
    s.Accounted o := by
  have hinv : s.pc.looping = true → s.Accounted o := by
    clear hs
    apply h.invariant
    · rintro s ⟨jobs, rfl⟩ -
      exact accounted_start o jobs
    · intro s a t hs ha ht
      exact (hs (looping_of_step ha ht)).step ha (looping_of_step ha ht) ht
  exact hinv hs

/-- As long as the main loop runs: `outstanding` is the number of claimed jobs that are in the
queue, with a slot, or counted and about to be put; it stays within its bounds; a claim asks for one
job at least and for as many as there is room for at most; and jobs run on the pool that is open. -/
theorem buffer_accounted (hbatch : 1 ≤ o.batchSize) (h : (process o).Reachable s)
    (hs : s.pc.looping = true) :
    s.outstanding = total queued s.ready + total SlotPc.busy s.slots + s.pc.counted ∧
    0 ≤ s.outstanding ∧ s.outstanding ≤ o.maxOutstanding ∧
    (∀ room, s.pc = .claim room → 1 ≤ min room o.claimBatch ∧
      min room o.claimBatch ≤ o.maxOutstanding - s.outstanding) ∧
    (0 < s.outstanding → ∃ k, s.pool = some ⟨k, true⟩) ∧
    ∀ (i : Nat) (job : ClaimedJob) (pool : Option Nat) (phase : RunPhase),
      s.slots[i]? = some (.running job pool phase) →
        ∃ k, pool = some k ∧ s.pool = some ⟨k, true⟩ := by
  have hacc := accounted_of_reachable h hs
  refine ⟨hacc.balance, hacc.nonneg, hacc.bounded, fun room hpc ↦ ?_,
    fun hpos ↦ hacc.opened (Or.inl hpos), fun i job pool phase hslot ↦ ?_⟩
  · obtain ⟨hpos, hroom⟩ : 1 ≤ room ∧ room ≤ o.maxOutstanding - s.outstanding :=
      hacc.knows_at hpc
    have hclaim : o.batchSize ≤ o.claimBatch := Nat.le_max_left _ _
    omega
  · exact hacc.pooled _ (List.mem_of_getElem? hslot)

/-- The slot takes the first of two claimed jobs. -/
theorem buffer_accounted_entered : ∃ s : Process, s.outstanding = 2 ∧ s.ready.length = 1 ∧
    s.slots = [.running ⟨1, "t", ""⟩ (some 0) .entered] ∧ s.pool = some ⟨0, true⟩ := by
  have hrun := (twoClaimed_run.reachable (.init ⟨_, rfl⟩)).step (.take (i := 0) rfl rfl)
  have hmain := buffer_accounted (by decide) (hrun.step (.enter (i := 0) rfl)) rfl
  obtain ⟨k, hk, hpool⟩ : ∃ k, some 0 = some k ∧ _ := hmain.2.2.2.2.2 0 _ _ _ rfl
  cases hk
  exact ⟨_, hmain.1, rfl, rfl, hpool⟩

end Process

end DurableQueue
