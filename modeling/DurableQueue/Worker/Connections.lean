import DurableQueue.Worker.Shutdown

/-!
# What a worker opens

A call of `run_worker` with its connections: the claim connection, the heartbeat's, and those of the
slots' pool, which are lent to slots.  It is left by its last line, or by an exception.
-/

open Reasoning

namespace DurableQueue

/-- `spare` counts the connections of the pool that are not lent, and `borrowers` are the slots that
have one, each with the number of the pool that it is from. -/
structure WorkerCall where
  workerId : WorkerId
  process : Process
  claimConn : Bool
  heartbeatConn : Bool
  spare : Nat
  borrowers : List (Nat × Nat)
  left : Bool

inductive CallAct where
  | process (a : ProcessAct)
  | connectClaim
  | closeClaim
  | connectHeartbeat
  | closeHeartbeat
  | poolConnect
  | poolDrop
  | borrow (i : Nat)
  | giveBack (i : Nat)
  | raise
  | leave

/-- Where the main thread calls `claim_conn.get()`. -/
def MainPc.connects : MainPc → Bool
  | deadLetter | claim _ | due _ | handBack _ => true
  | _ => false

namespace RunPhase

/-- Where `run_job` borrows a connection. -/
def borrows : RunPhase → Bool
  | executing _ | failing _ => true
  | _ => false

/-- Where it may have one that it has not given back. -/
def lends : RunPhase → Bool
  | executing _ | failing _ | settled _ _ => true
  | _ => false

end RunPhase

namespace WorkerCall

/-- `Runner` sets `idle`. -/
def options (o : ProcessOptions) (c : WorkerCall) : ProcessOptions :=
  { o with workerId := c.workerId, idle := true }

/-- `claim_conn.get()` has succeeded, and the heartbeat and the slots have been started. -/
def start (o : ProcessOptions) (workerId : WorkerId) (jobs : Jobs) : WorkerCall where
  workerId := workerId
  process := Process.start { o with workerId := workerId, idle := true } jobs
  claimConn := true
  heartbeatConn := false
  spare := 0
  borrowers := []
  left := false

/-- A statement needs a connection, and `run_job` is left without one. -/
def connected (c : WorkerCall) : ProcessAct → Prop
  | .deadLetter .. | .recover .. | .claim .. | .handBack true => c.claimConn = true
  | .beat _ true => c.heartbeatConn = true
  | .complete i .. | .fail i .. => i ∈ c.borrowers.map Prod.fst
  | .release i => i ∉ c.borrowers.map Prod.fst
  | .raise => False
  | _ => True

def connections (c : WorkerCall) : Nat :=
  c.claimConn.toNat + c.heartbeatConn.toNat + c.spare + c.borrowers.length

end WorkerCall

/-- The pool is open. -/
def Process.poolOpen (s : Process) : Bool := s.pool.any SlotPool.opened

inductive CallStep (o : ProcessOptions) : WorkerCall → CallAct → WorkerCall → Prop where
  | process {c : WorkerCall} {a : ProcessAct} {p : Process}
      (ha : ProcessStep (c.options o) c.process a p) (hconn : c.connected a) :
      CallStep o c (.process a)
        { c with process := p, spare := if p.poolOpen then c.spare else 0 }
  | connectClaim {c : WorkerCall} (hpc : c.process.pc.connects = true) :
      CallStep o c .connectClaim { c with claimConn := true }
  -- by the code, by the server, or with the last reference
  | closeClaim {c : WorkerCall} : CallStep o c .closeClaim { c with claimConn := false }
  | connectHeartbeat {c : WorkerCall} (hbeat : c.process.beat ≠ none) :
      CallStep o c .connectHeartbeat { c with heartbeatConn := true }
  | closeHeartbeat {c : WorkerCall} :
      CallStep o c .closeHeartbeat { c with heartbeatConn := false }
  -- `max_size=concurrency`
  | poolConnect {c : WorkerCall} {n : Nat} (hpool : c.process.pool = some ⟨n, true⟩)
      (hmax : c.spare + c.borrowers.countP (decide <| ·.2 = n) < o.concurrency) :
      CallStep o c .poolConnect { c with spare := c.spare + 1 }
  | poolDrop {c : WorkerCall} : CallStep o c .poolDrop { c with spare := c.spare - 1 }
  | borrow {c : WorkerCall} {i n : Nat} {job : ClaimedJob} {phase : RunPhase}
      (hslot : c.process.slots[i]? = some (.running job (some n) phase))
      (hphase : phase.borrows = true) (hpool : c.process.pool = some ⟨n, true⟩)
      (hspare : 0 < c.spare) (hone : i ∉ c.borrowers.map Prod.fst) :
      CallStep o c (.borrow i)
        { c with spare := c.spare - 1, borrowers := (i, n) :: c.borrowers }
  -- a pool that has been closed closes what it gets back
  | giveBack {c : WorkerCall} {i n : Nat} (hlent : (i, n) ∈ c.borrowers) :
      CallStep o c (.giveBack i)
        { c with
          spare := if c.process.pool = some ⟨n, true⟩ then c.spare + 1 else c.spare
          borrowers := c.borrowers.erase (i, n) }
  -- whatever is not an `OperationalError`, and nothing else is done on the way out
  | raise {c : WorkerCall} (hleft : c.left = false) (hstopped : c.process.stopped = false) :
      CallStep o c .raise
        { c with
          process := { c.process with pc := .raised c.process.pc.inHand }
          left := true }
  -- after `heartbeat.stop()`
  | leave {c : WorkerCall} (hleft : c.left = false) (hpc : c.process.pc = .returned)
      (hstopped : c.process.stopped = true) :
      CallStep o c .leave
        { c with
          process :=
            { c.process with pool := c.process.pool.map ({ · with opened := false }) }
          claimConn := false
          heartbeatConn := false
          spare := 0
          left := true }

/-! ## What a process keeps until it raises -/

/-- A running slot has the number of the pool that the main thread has. -/
def SlotPc.Matched (pool : Option SlotPool) : SlotPc → Prop
  | running _ p _ => p = pool.map SlotPool.number
  | _ => True

variable {o : ProcessOptions}

namespace Process

variable {s t : Process} {a : ProcessAct} {i : Nat}

theorem not_raised_of_move {pc pc' : MainPc} (h : MainMove o s pc pc') (batch : List ClaimedJob) :
    pc' ≠ .raised batch := by
  cases h with
  | due => split <;> nofun
  | _ => nofun

-- Only the raising step leads to `raised`.
theorem raised_of_step {batch : List ClaimedJob} (ha : ProcessStep o s a t) (hraise : a ≠ .raise)
    (ht : t.pc = .raised batch) : s.pc = .raised batch := by
  cases ha with
  | main hm => exact absurd ht (not_raised_of_move hm batch)
  | raise => exact absurd rfl hraise
  | claimed hpc hclaim =>
      dsimp only at ht
      split at ht <;> cases ht
  | deadLetter | recover | claimedUnseen | hold | openPool | count | put | putAll | close | forget
  | drain | letGo | handBack | sentinels => cases ht
  | @beat ctx done => cases done <;> exact ht
  | _ => exact ht

-- The loop is left when `stop` has been seen.
theorem stop_of_stopping (hs : s.pc.stopping = true → s.stop = true) (ha : ProcessStep o s a t)
    (ht : t.pc.stopping = true) : t.stop = true := by
  cases ha with
  | main hm =>
      generalize s.pc = pc at hm hs
      cases hm with
      | stop hstop | stopAgain hstop => exact hstop
      | drained | joined => exact hs rfl
      | due => dsimp only at ht; split at ht <;> cases ht
      | _ => cases ht
  | claimed hpc hclaim =>
      dsimp only at ht
      split at ht <;> cases ht
  | deadLetter | recover | claimedUnseen | hold | openPool | count | put | putAll | close | forget
  | raise => cases ht
  | drain hpc | letGo hpc | sentinels hpc => exact hs (by rw [hpc]; rfl)
  | @handBack unstarted done ctx hpc => cases done <;> exact hs (by rw [hpc]; rfl)
  | setStop => rfl
  | @beat ctx done => cases done <;> exact hs ht
  | _ => exact hs ht

/-- Every running slot has the number of the pool that is there. -/
def Matched (s : Process) : Prop := ∀ slot ∈ s.slots, slot.Matched s.pool

theorem Accounted.matched (h : s.Accounted o) : s.Matched := by
  intro slot hmem
  cases slot with
  | running job p phase =>
      obtain ⟨k, hp, hpool⟩ : (SlotPc.running job p phase).Pooled s.pool := h.pooled _ hmem
      change p = s.pool.map SlotPool.number
      rw [hp, hpool]
      rfl
  | _ => trivial

-- After the loop no other pool is opened.
theorem pool_of_step (ha : ProcessStep o s a t) (ht : t.pc.looping = false) : t.pool = s.pool := by
  cases ha with
  | openPool | close | forget => cases ht
  | @handBack unstarted done | @beat ctx done => cases done <;> rfl
  | _ => rfl

theorem Matched.set {new : SlotPc} (h : s.Matched) (hpool : t.pool = s.pool)
    (hslots : t.slots = s.slots.set i new) (hnew : new.Matched s.pool) : t.Matched := by
  intro slot hmem
  rw [hslots] at hmem
  rw [hpool]
  rcases List.mem_or_eq_of_mem_set hmem with hold | rfl
  · exact h slot hold
  · exact hnew

theorem Matched.keeps {job : ClaimedJob} {pool : Option Nat} {phase : RunPhase} (h : s.Matched)
    (hslot : s.slots[i]? = some (.running job pool phase)) (phase' : RunPhase) :
    (SlotPc.running job pool phase').Matched s.pool := by
  have hmatched : (SlotPc.running job pool phase).Matched s.pool :=
    h _ (List.mem_of_getElem? hslot)
  exact hmatched

theorem Matched.step (h : s.Matched) (ha : ProcessStep o s a t) (ht : t.pc.looping = false) :
    t.Matched := by
  have hpool := pool_of_step ha ht
  cases ha with
  | take | finish | sentinel | leave => exact h.set hpool rfl trivial
  | enter => exact h.set hpool rfl rfl
  | start hslot | unregistered hslot | raises hslot | swallow hslot | complete hslot | fail hslot
  | unrecorded hslot | release hslot => exact h.set hpool rfl (h.keeps hslot _)
  | loop => exact h.set hpool rfl (by split <;> trivial)
  | openPool | close | forget => cases ht
  | @handBack unstarted done | @beat ctx done => cases done <;> exact h
  | _ => exact h

-- The heartbeat is stopped by the last line only, and does nothing after that.
theorem stopped_of_step (hs : s.stopped = true → s.pc = .returned ∧ s.beat = none)
    (ha : ProcessStep o s a t) (hraise : a ≠ .raise) (ht : t.stopped = true) :
    t.pc = .returned ∧ t.beat = none := by
  have hat {pc : MainPc} (hpc : s.pc = pc) (hne : pc ≠ .returned) (hstopped : s.stopped = true) :
      False := hne (hpc.symm.trans (hs hstopped).1)
  cases ha with
  | main hm =>
      obtain ⟨hpc, -⟩ := hs ht
      rw [hpc] at hm
      cases hm with
      | loseConnection hguarded => cases hguarded
  | deadLetter hpc | recover hpc | claimed hpc | claimedUnseen hpc | hold hpc | openPool hpc
  | count hpc | put hpc | putAll hpc | close hpc | forget hpc | drain hpc | letGo hpc
  | sentinels hpc => exact absurd ht (hat hpc nofun)
  | @handBack unstarted done ctx hpc => cases done <;> exact absurd ht (hat hpc nofun)
  | raise => exact absurd rfl hraise
  | look hbeat hstopped => cases hstopped.symm.trans ht
  | @beat ctx done ids readAt hbeat =>
      cases done <;> cases hbeat.symm.trans (hs ht).2
  | stopBeat hpc hbeat => exact ⟨hpc, hbeat⟩
  | _ => exact hs ht

theorem stopped_mono (ha : ProcessStep o s a t) (hs : s.stopped = true) : t.stopped = true := by
  cases ha with
  | stopBeat => rfl
  | @handBack unstarted done | @beat ctx done => cases done <;> exact hs
  | _ => exact hs

theorem raised_stays {batch : List ClaimedJob} (ha : ProcessStep o s a t)
    (hpc : s.pc = .raised batch) (hs : s.stopped = false) :
    t.pc = .raised batch ∧ t.stopped = false := by
  cases ha with
  | main hm =>
      rw [hpc] at hm
      cases hm with
      | loseConnection hguarded => cases hguarded
  | deadLetter hat | recover hat | claimed hat | claimedUnseen hat | hold hat | openPool hat
  | count hat | put hat | putAll hat | close hat | forget hat | drain hat | letGo hat
  | handBack hat | sentinels hat | stopBeat hat => cases hpc.symm.trans hat
  | raise =>
      refine ⟨?_, hs⟩
      rw [hpc]
      rfl
  | @beat ctx done => cases done <;> exact ⟨hpc, hs⟩
  | _ => exact ⟨hpc, hs⟩

/-- Each of these slots is in a run that has borrowed from that pool. -/
def Lent (s : Process) (borrowers : List (Nat × Nat)) : Prop :=
  ∀ b ∈ borrowers, ∃ job phase, s.slots[b.1]? = some (.running job (some b.2) phase) ∧
    phase.lends = true

theorem Lent.set {borrowers : List (Nat × Nat)} {old new : SlotPc} (h : s.Lent borrowers)
    (hslot : s.slots[i]? = some old) (hslots : t.slots = s.slots.set i new)
    (hnew : ∀ job n phase, old = .running job (some n) phase → phase.lends = true →
      i ∈ borrowers.map Prod.fst →
      ∃ phase', new = .running job (some n) phase' ∧ phase'.lends = true) :
    t.Lent borrowers := by
  intro b hb
  obtain ⟨job, phase, hb', hlends⟩ := h b hb
  by_cases hbi : b.1 = i
  · rw [hbi] at hb'
    obtain rfl := Option.some.inj (hslot.symm.trans hb')
    obtain ⟨phase', rfl, hlends'⟩ := hnew job b.2 phase rfl hlends
      (hbi ▸ List.mem_map_of_mem (f := Prod.fst) hb)
    obtain ⟨hlt, -⟩ := List.getElem?_eq_some_iff.mp hslot
    refine ⟨job, phase', ?_, hlends'⟩
    rw [hslots, hbi, List.getElem?_set_self hlt]
  · refine ⟨job, phase, ?_, hlends⟩
    rw [hslots, List.getElem?_set_ne (Ne.symm hbi)]
    exact hb'

theorem Lent.step {borrowers : List (Nat × Nat)} (h : s.Lent borrowers) (ha : ProcessStep o s a t)
    (hrelease : ∀ i, a = .release i → i ∉ borrowers.map Prod.fst) : t.Lent borrowers := by
  cases ha with
  | take hslot | enter hslot | sentinel hslot | leave hslot | loop hslot =>
      exact h.set hslot rfl nofun
  | start hslot | unregistered hslot | finish hslot =>
      refine h.set hslot rfl fun job n phase hold hlends _ ↦ ?_
      cases hold
      cases hlends
  | raises hslot =>
      refine h.set hslot rfl fun job n phase hold _ _ ↦ ?_
      cases hold
      exact ⟨_, rfl, by split <;> rfl⟩
  | complete hslot =>
      refine h.set hslot rfl fun job n phase hold _ _ ↦ ?_
      cases hold
      exact ⟨_, rfl, by split <;> rfl⟩
  | swallow hslot | fail hslot | unrecorded hslot =>
      refine h.set hslot rfl fun job n phase hold _ _ ↦ ?_
      cases hold
      exact ⟨_, rfl, rfl⟩
  | @release i job pool deadline exit hslot =>
      exact h.set hslot rfl fun _ _ _ _ _ hmem ↦ absurd hmem (hrelease i rfl)
  | @handBack unstarted done | @beat ctx done => cases done <;> exact h
  | _ => exact h

end Process

/-! ## What a call keeps until it raises -/

namespace WorkerCall

structure Sound (o : ProcessOptions) (c : WorkerCall) : Prop where
  orderly : c.process.Orderly (c.options o)
  accounted : c.process.pc.looping = true → c.process.Accounted (c.options o)
  matched : c.process.Matched
  unraised : ∀ batch, c.process.pc ≠ .raised batch
  stopping : c.process.pc.stopping = true → c.process.stop = true
  stopped : c.process.stopped = true → c.process.pc = .returned ∧ c.process.beat = none
  lent : c.process.Lent c.borrowers
  spare : c.process.poolOpen = false → c.spare = 0
  bounded : c.spare + c.borrowers.length ≤ o.concurrency
  left : c.left = true → c.process.stopped = true ∧ c.claimConn = false ∧
    c.heartbeatConn = false ∧ c.process.poolOpen = false

variable {c d : WorkerCall} {a : CallAct}

theorem sound_start (o : ProcessOptions) (workerId : WorkerId) (jobs : Jobs) :
    (start o workerId jobs).Sound o where
  orderly := Process.orderly_of_reachable (.init ⟨jobs, rfl⟩)
  accounted _ := Process.accounted_start _ jobs
  matched := (Process.accounted_start _ jobs).matched
  unraised := nofun
  stopping := nofun
  stopped := nofun
  lent := nofun
  spare _ := rfl
  bounded := Nat.zero_le _
  left := nofun

-- All that has been borrowed is from the pool that is there.
theorem Sound.borrowed (h : c.Sound o) {b : Nat × Nat} (hb : b ∈ c.borrowers) :
    c.process.pool.map SlotPool.number = some b.2 := by
  obtain ⟨job, phase, hslot, -⟩ := h.lent b hb
  have hmatched : (SlotPc.running job (some b.2) phase).Matched c.process.pool :=
    h.matched _ (List.mem_of_getElem? hslot)
  exact hmatched.symm

theorem Sound.process {a : ProcessAct} {p : Process} (h : c.Sound o)
    (ha : ProcessStep (c.options o) c.process a p) (hconn : c.connected a) :
    Sound o { c with process := p, spare := if p.poolOpen then c.spare else 0 } := by
  have hraise : a ≠ .raise := by
    rintro rfl
    exact hconn
  have haccounted (hp : p.pc.looping = true) : p.Accounted (c.options o) := by
    have hs := Process.looping_of_step ha hp
    exact (h.accounted hs).step ha hs hp
  refine ⟨h.orderly.step ha, haccounted, ?_,
    fun batch hp ↦ h.unraised batch (Process.raised_of_step ha hraise hp),
    Process.stop_of_stopping h.stopping ha, Process.stopped_of_step h.stopped ha hraise,
    h.lent.step ha ?_, fun hp ↦ ?_, ?_, fun hleft ↦ ?_⟩
  · by_cases hp : p.pc.looping = true
    · exact (haccounted hp).matched
    · exact h.matched.step ha (Bool.eq_false_iff.mpr hp)
  · rintro i rfl
    exact hconn
  · change (if p.poolOpen = true then c.spare else 0) = 0
    rw [show p.poolOpen = false from hp]
    rfl
  · have hbounded := h.bounded
    change (if p.poolOpen = true then c.spare else 0) + c.borrowers.length ≤ o.concurrency
    split <;> omega
  · obtain ⟨hstopped, hclaim, hheartbeat, hpool⟩ := h.left hleft
    have hp := Process.stopped_mono ha hstopped
    refine ⟨hp, hclaim, hheartbeat, ?_⟩
    have hreturned := (Process.stopped_of_step h.stopped ha hraise hp).1
    change Process.poolOpen p = false
    rw [Process.poolOpen, Process.pool_of_step ha (by rw [hreturned]; rfl)]
    exact hpool

-- The pool lends, takes back, opens and closes connections.
theorem Sound.pool (h : c.Sound o) {spare : Nat} {borrowers : List (Nat × Nat)}
    (hlent : c.process.Lent borrowers) (hspare : c.process.poolOpen = false → spare = 0)
    (hbounded : spare + borrowers.length ≤ o.concurrency) :
    Sound o { c with spare := spare, borrowers := borrowers } :=
  ⟨h.orderly, h.accounted, h.matched, h.unraised, h.stopping, h.stopped, hlent, hspare, hbounded,
    h.left⟩

theorem Sound.poolConnect {n : Nat} (h : c.Sound o) (hpool : c.process.pool = some ⟨n, true⟩)
    (hmax : c.spare + c.borrowers.countP (decide <| ·.2 = n) < o.concurrency) :
    Sound o { c with spare := c.spare + 1 } := by
  have hopen : c.process.poolOpen = true := by
    rw [Process.poolOpen, hpool]
    rfl
  have hall : c.borrowers.countP (decide <| ·.2 = n) = c.borrowers.length := by
    refine List.countP_eq_length.mpr fun b hb ↦ decide_eq_true ?_
    have hnumber := h.borrowed hb
    rw [hpool] at hnumber
    exact (Option.some.inj hnumber).symm
  rw [hall] at hmax
  refine h.pool h.lent (fun hclosed ↦ ?_) (by omega)
  cases hopen.symm.trans hclosed

theorem Sound.poolDrop (h : c.Sound o) : Sound o { c with spare := c.spare - 1 } := by
  have hbounded := h.bounded
  refine h.pool h.lent (fun hclosed ↦ ?_) (by omega)
  rw [h.spare hclosed]

theorem Sound.borrow {i n : Nat} {job : ClaimedJob} {phase : RunPhase} (h : c.Sound o)
    (hslot : c.process.slots[i]? = some (.running job (some n) phase))
    (hphase : phase.borrows = true) (hspare : 0 < c.spare) :
    Sound o { c with spare := c.spare - 1, borrowers := (i, n) :: c.borrowers } := by
  have hbounded := h.bounded
  refine h.pool (fun b hb ↦ ?_) (fun hclosed ↦ ?_) ?_
  · rcases List.mem_cons.mp hb with rfl | hb
    · exact ⟨job, phase, hslot, by cases phase <;> first | rfl | cases hphase⟩
    · exact h.lent b hb
  · have hzero := h.spare hclosed
    omega
  · rw [List.length_cons]
    omega

theorem Sound.giveBack {i n : Nat} (h : c.Sound o) (hlent : (i, n) ∈ c.borrowers) :
    Sound o
      { c with
        spare := if c.process.pool = some ⟨n, true⟩ then c.spare + 1 else c.spare
        borrowers := c.borrowers.erase (i, n) } := by
  refine h.pool (fun b hb ↦ h.lent b (List.mem_of_mem_erase hb)) (fun hclosed ↦ ?_) ?_
  · have hnot : c.process.pool ≠ some ⟨n, true⟩ := by
      intro hpool
      rw [Process.poolOpen, hpool] at hclosed
      cases hclosed
    exact (if_neg hnot).trans (h.spare hclosed)
  · have hbounded := h.bounded
    have hlen := List.length_erase_of_mem hlent
    have hpos := List.length_pos_of_mem hlent
    split <;> omega

-- Nothing is opened any more when the call has been left.
theorem Sound.conns (h : c.Sound o) {claimConn heartbeatConn : Bool}
    (hleft : c.left = true → claimConn = false ∧ heartbeatConn = false) :
    Sound o { c with claimConn := claimConn, heartbeatConn := heartbeatConn } := by
  refine ⟨h.orderly, h.accounted, h.matched, h.unraised, h.stopping, h.stopped, h.lent, h.spare,
    h.bounded, fun hl ↦ ?_⟩
  obtain ⟨hstopped, -, -, hpool⟩ := h.left hl
  exact ⟨hstopped, (hleft hl).1, (hleft hl).2, hpool⟩

theorem Sound.leave (h : c.Sound o) (hpc : c.process.pc = .returned)
    (hstopped : c.process.stopped = true) :
    Sound o
      { c with
        process := { c.process with pool := c.process.pool.map ({ · with opened := false }) }
        claimConn := false
        heartbeatConn := false
        spare := 0
        left := true } := by
  have hclosed : (c.process.pool.map ({ · with opened := false })).any SlotPool.opened = false := by
    cases c.process.pool <;> rfl
  have hnumber : (c.process.pool.map ({ · with opened := false })).map SlotPool.number =
      c.process.pool.map SlotPool.number := by
    cases c.process.pool <;> rfl
  refine ⟨⟨h.orderly.slots, h.orderly.quiet, h.orderly.drained, h.orderly.served⟩, fun hp ↦ ?_,
    fun slot hslot ↦ ?_, h.unraised, h.stopping, h.stopped, h.lent, fun _ ↦ rfl, ?_,
    fun _ ↦ ⟨hstopped, rfl, rfl, hclosed⟩⟩
  · rw [show c.process.pc = .returned from hpc] at hp
    cases hp
  · have hmatched := h.matched slot hslot
    cases slot with
    | running job p phase =>
        have hp : p = c.process.pool.map SlotPool.number := hmatched
        exact hp.trans hnumber.symm
    | _ => trivial
  · have hbounded := h.bounded
    change 0 + c.borrowers.length ≤ o.concurrency
    omega

theorem Sound.step (h : c.Sound o) (ha : CallStep o c a d) (hraise : a ≠ .raise) :
    d.Sound o := by
  cases ha with
  | process ha hconn => exact h.process ha hconn
  | poolConnect hpool hmax => exact h.poolConnect hpool hmax
  | borrow hslot hphase hpool hspare => exact h.borrow hslot hphase hspare
  | giveBack hlent => exact h.giveBack hlent
  | leave hleft hpc hstopped => exact h.leave hpc hstopped
  | raise => exact absurd rfl hraise
  | poolDrop => exact h.poolDrop
  | connectClaim hpc =>
      refine h.conns fun hleft ↦ ?_
      rw [(h.stopped (h.left hleft).1).1] at hpc
      cases hpc
  | connectHeartbeat hbeat =>
      exact h.conns fun hleft ↦ absurd (h.stopped (h.left hleft).1).2 hbeat
  | closeClaim => exact h.conns fun hleft ↦ ⟨rfl, (h.left hleft).2.2.1⟩
  | closeHeartbeat => exact h.conns fun hleft ↦ ⟨(h.left hleft).2.1, rfl⟩

theorem Sound.connections_le (h : c.Sound o) : c.connections ≤ o.concurrency + 2 := by
  have hbounded := h.bounded
  have hclaim := Bool.toNat_le c.claimConn
  have hheartbeat := Bool.toNat_le c.heartbeatConn
  unfold connections
  omega

/-- What the last lines of `run_worker` see to: the heartbeat is stopped, there is a sentinel for
each slot that is still there and nothing else in the queue, and what has been opened is closed. -/
structure Released (c : WorkerCall) : Prop where
  heartbeat : c.process.stopped = true ∧ c.process.beat = none
  slots : total SlotPc.awaits c.process.slots ≤ c.process.ready.length ∧
    c.process.ready.reduceOption = []
  connections : c.claimConn = false ∧ c.heartbeatConn = false
  pool : c.process.poolOpen = false ∧ c.spare = 0

/-- The slots that may get another job. -/
def takers (c : WorkerCall) : Int :=
  if c.process.pc.drained then 0 else total SlotPc.awaits c.process.slots

theorem Sound.released (h : c.Sound o) (hleft : c.left = true) : c.Released := by
  obtain ⟨hstopped, hclaim, hheartbeat, hpool⟩ := h.left hleft
  obtain ⟨hpc, hbeat⟩ := h.stopped hstopped
  exact ⟨⟨hstopped, hbeat⟩, ⟨h.orderly.served (by rw [hpc]; rfl),
    h.orderly.drained (by rw [hpc]; rfl)⟩, ⟨hclaim, hheartbeat⟩, ⟨hpool, h.spare hpool⟩⟩

theorem Sound.takers_le (h : c.Sound o) : c.takers ≤ o.concurrency := by
  have hle := total_le_length (l := c.process.slots) fun x _ ↦ Process.awaits_le_one x
  rw [h.orderly.slots] at hle
  unfold takers
  split
  · exact Int.natCast_nonneg _
  · exact hle

-- Others may write to the table, time passes, and `stop` may be set.
theorem Sound.shared (h : c.Sound o) (jobs : Jobs) (time : Int) {stop : Bool}
    (hstop : c.process.stop = true → stop = true) :
    Sound o
      { c with process := { c.process with jobs := jobs, time := time, stop := stop } } := by
  refine ⟨⟨h.orderly.slots, h.orderly.quiet, h.orderly.drained, h.orderly.served⟩, fun hp ↦ ?_,
    h.matched, h.unraised, fun hp ↦ hstop (h.stopping hp), h.stopped, h.lent, h.spare, h.bounded,
    h.left⟩
  have hacc := h.accounted hp
  refine ⟨hacc.balance, hacc.bounded, ?_, hacc.opened, hacc.closed, hacc.pooled, hacc.noSentinel,
    hacc.noLeaving⟩
  by_cases hsame : c.process.stop = stop
  · rw [← hsame]
    exact hacc.knows
  · rw [show stop = true by cases stop <;> simp_all]
    exact hacc.knows.setStop

/-! ## A call that has raised -/

/-- Nobody is there any more to stop the heartbeat. -/
def Crashed (c : WorkerCall) : Prop :=
  c.left = true ∧ c.process.stopped = false ∧ ∃ batch, c.process.pc = .raised batch

theorem Crashed.step (h : c.Crashed) (ha : CallStep o c a d) : d.Crashed := by
  obtain ⟨hleft, hstopped, batch, hpc⟩ := h
  cases ha with
  | process ha hconn =>
      obtain ⟨hpc', hstopped'⟩ := Process.raised_stays ha hpc hstopped
      exact ⟨hleft, hstopped', _, hpc'⟩
  | leave hleft' => cases hleft.symm.trans hleft'
  | raise hleft' => cases hleft.symm.trans hleft'
  | _ => exact ⟨hleft, hstopped, batch, hpc⟩

theorem Crashed.not_released (h : c.Crashed) : ¬ c.Released :=
  fun hreleased ↦ by cases h.2.1.symm.trans hreleased.heartbeat.1

end WorkerCall

end DurableQueue
