import DurableQueue.Worker.RunJob
import DurableQueue.Worker.Transactional

/-!
# `mark_failed` is one step

`mark_failed` statement by statement, on an autocommit connection or inside a caller's transaction.
What an open transaction has written is its own until it commits, and locks the rows it is about.
-/

open Reasoning

namespace DurableQueue

/-- Row writes in order: an id, and the `SET` clause for its row. -/
abbrev Writes := List (Nat × SetClause)

namespace Jobs

def write (t : Jobs) (ws : Writes) : Jobs := ws.foldl (fun u w ↦ u.updateId w.1 w.2) t

theorem row_updateId (t : Jobs) (jobId id : Nat) (u : SetClause) :
    (t.updateId jobId u).row id = (t.row id).map fun r ↦ if r.id = jobId then u r else r := by
  simp only [updateId, row_update, decide_eq_true_eq]

theorem row_write_congr {t t' : Jobs} {id : Nat} (ws : Writes) (h : t.row id = t'.row id) :
    (t.write ws).row id = (t'.write ws).row id := by
  induction ws generalizing t t' with
  | nil => exact h
  | cons w ws ih => exact ih (by rw [row_updateId, row_updateId, h])

theorem row_write_of_not_mem {t : Jobs} {id : Nat} {ws : Writes} (h : id ∉ ws.map Prod.fst) :
    (t.write ws).row id = t.row id := by
  induction ws generalizing t with
  | nil => rfl
  | cons w ws ih =>
      rw [List.map_cons, List.mem_cons, not_or] at h
      refine (ih h.2).trans ?_
      rw [row_updateId]
      cases hr : t.row id with
      | none => rfl
      | some r =>
          have hne : r.id ≠ w.1 := fun he ↦ h.1 ((row_id hr).symm.trans he)
          rw [Option.map_some, if_neg hne]

theorem write_append (t : Jobs) (ws ws' : Writes) : t.write (ws ++ ws') = (t.write ws).write ws' :=
  List.foldl_append ..

-- The first UPDATE of a worker that holds the job finds the row that the second one finds by id.
theorem updateHeld_eq_updateId {t : Jobs} {jobId : Nat} {w : WorkerId} {r : Job} (u : SetClause)
    (hr : t.row jobId = some r) (hheld : r.heldBy w = true) :
    t.updateHeld [jobId] w u = t.updateId jobId u := by
  refine Jobs.ext (List.map_congr_left fun x hx ↦ ?_) rfl
  have hiff : (decide (x.id ∈ [jobId]) && x.heldBy w) = true ↔ decide (x.id = jobId) = true := by
    rw [Bool.and_eq_true, decide_eq_true_eq, decide_eq_true_eq, List.mem_singleton]
    constructor
    · exact And.left
    · rintro rfl
      obtain rfl := Option.some.inj ((row_of_mem hx).symm.trans hr)
      exact ⟨rfl, hheld⟩
  simp only [hiff]

end Jobs

structure FailArgs where
  jobId : Nat
  workerId : WorkerId
  error : PyStr
  permanent : Bool
  maxAttempts : Option Int

inductive FailPhase where
  | waiting               -- before its first UPDATE
  | missed                -- which has matched no row
  | counted (r : Job)     -- which has matched `r`
  | delayed (r : Job) (draw delay : Int)
  | written (r : Job) (draw : Int)

/-- A `mark_failed` under way, in a transaction that had written `saved` before. -/
structure MarkingFailed where
  args : FailArgs
  saved : Writes
  phase : FailPhase

/-- An open transaction: the caller's, or `mark_failed`'s own. -/
structure Txn where
  now : Int
  callers : Bool
  own : Writes
  failing : Option MarkingFailed

/-- The committed table, and the transactions that are open on it. -/
structure SharedJobs where
  jobs : Jobs
  txns : Nat → Option Txn

inductive SharedAct where
  | call (c : Call)
  | begin (k : Nat) (now : Int)
  | write (k id : Nat) (u : SetClause)
  | start (k : Nat) (now : Int) (args : FailArgs)
  | count (k : Nat)
  | backoff (k : Nat) (draw : Int)
  | record (k : Nat)
  | raise (k : Nat)
  | commit (k : Nat)
  | crash (k : Nat)

/-- The transaction that takes the step. -/
def SharedAct.txn : SharedAct → Option Nat
  | .call _ => none
  | .begin k _ => some k
  | .write k _ _ => some k
  | .start k _ _ => some k
  | .count k => some k
  | .backoff k _ => some k
  | .record k => some k
  | .raise k => some k
  | .commit k => some k
  | .crash k => some k

/-- What `mark_failed` decides from the row that its first UPDATE returns. -/
def FailArgs.lastAttempt (args : FailArgs) (row : Job) : Bool :=
  args.permanent || decide (row.maxAttempts ≤ row.attempts)

def FailArgs.count (args : FailArgs) : SetClause := .countFailure args.maxAttempts

/-- The call that these arguments make. -/
def FailArgs.call (args : FailArgs) (now draw : Int) : Call :=
  ⟨.alone now, .markFailed args.jobId args.workerId args.error args.permanent args.maxAttempts draw⟩

namespace Txn

def locks (x : Txn) (id : Nat) : Prop := id ∈ x.own.map Prod.fst

/-- `mark_failed` goes on, and may have written. -/
def go (x : Txn) (m : MarkingFailed) (ws : Writes) (phase : FailPhase) : Txn :=
  { x with own := x.own ++ ws, failing := some { m with phase := phase } }

/-- An exception in `mark_failed`: back to its savepoint, or the end of the transaction. -/
def raised (x : Txn) (m : MarkingFailed) : Option Txn :=
  if x.callers then some { x with own := m.saved, failing := none } else none

end Txn

namespace SharedJobs

def start (t : Jobs) : SharedJobs := ⟨t, fun _ ↦ none⟩

def setTxn (s : SharedJobs) (k : Nat) (x : Option Txn) : SharedJobs :=
  { s with txns := Function.update s.txns k x }

/-- No other transaction has the row locked. -/
def Free (s : SharedJobs) (k id : Nat) : Prop :=
  ∀ k' x, k' ≠ k → s.txns k' = some x → ¬ x.locks id

/-- The row as the transaction sees it. -/
def seen (s : SharedJobs) (x : Txn) (id : Nat) : Option Job := (s.jobs.write x.own).row id

end SharedJobs

/-- A call takes a locked row for one to skip, or waits until it is not.  Between two statements of
`mark_failed`, and in place of any of them, an exception or a crash may come. -/
inductive SharedStep : SharedJobs → SharedAct → SharedJobs → Prop where
  | call {s : SharedJobs} {c : Call}
      (hlocks : ∀ k x id, s.txns k = some x → x.locks id →
        if c.op.skipsLocked then c.locked id = true
        else (c.run s.jobs).row id = s.jobs.row id) :
      SharedStep s (.call c) { s with jobs := c.run s.jobs }
  | begin {s : SharedJobs} {k : Nat} {now : Int} (hnew : s.txns k = none) :
      SharedStep s (.begin k now) (s.setTxn k (some ⟨now, true, [], none⟩))
  | write {s : SharedJobs} {k id : Nat} {u : SetClause} {x : Txn} (hx : s.txns k = some x)
      (hidle : x.failing = none) (hfree : s.Free k id) :
      SharedStep s (.write k id u) (s.setTxn k (some { x with own := x.own ++ [(id, u)] }))
  | startAlone {s : SharedJobs} {k : Nat} {now : Int} {args : FailArgs} (hnew : s.txns k = none) :
      SharedStep s (.start k now args)
        (s.setTxn k (some ⟨now, false, [], some ⟨args, [], .waiting⟩⟩))
  | startInside {s : SharedJobs} {k : Nat} {args : FailArgs} {x : Txn} (hx : s.txns k = some x)
      (hidle : x.failing = none) :
      SharedStep s (.start k x.now args)
        (s.setTxn k (some { x with failing := some ⟨args, x.own, .waiting⟩ }))
  | miss {s : SharedJobs} {k : Nat} {x : Txn} {m : MarkingFailed} (hx : s.txns k = some x)
      (hm : x.failing = some m) (hphase : m.phase = .waiting)
      (hnone : ∀ r, s.seen x m.args.jobId = some r → r.heldBy m.args.workerId = false) :
      SharedStep s (.count k) (s.setTxn k (some (x.go m [] .missed)))
  | count {s : SharedJobs} {k : Nat} {x : Txn} {m : MarkingFailed} {r : Job}
      (hx : s.txns k = some x) (hm : x.failing = some m) (hphase : m.phase = .waiting)
      (hr : s.seen x m.args.jobId = some r) (hheld : r.heldBy m.args.workerId = true)
      (hfree : s.Free k m.args.jobId)
      (hfits : fitsInt (m.args.count r).attempts = true ∧
        m.args.maxAttempts.all fitsInt = true) :
      SharedStep s (.count k)
        (s.setTxn k (some (x.go m [(m.args.jobId, m.args.count)] (.counted r))))
  | backoff {s : SharedJobs} {k : Nat} {x : Txn} {m : MarkingFailed} {r : Job} {draw delay : Int}
      (hx : s.txns k = some x) (hm : x.failing = some m) (hphase : m.phase = .counted r)
      (hmore : m.args.lastAttempt (m.args.count r) = false)
      (hdelay : Jobs.computeBackoff (m.args.count r).attempts draw = some delay) :
      SharedStep s (.backoff k draw) (s.setTxn k (some (x.go m [] (.delayed r draw delay))))
  | bury {s : SharedJobs} {k : Nat} {x : Txn} {m : MarkingFailed} {r : Job}
      (hx : s.txns k = some x) (hm : x.failing = some m) (hphase : m.phase = .counted r)
      (hlast : m.args.lastAttempt (m.args.count r) = true)
      (hrec : Jobs.recordable m.args.error = true) :
      SharedStep s (.record k)
        (s.setTxn k (some (x.go m [(m.args.jobId, .bury x.now m.args.error)] (.written r 0))))
  | reschedule {s : SharedJobs} {k : Nat} {x : Txn} {m : MarkingFailed} {r : Job}
      {draw delay : Int} (hx : s.txns k = some x) (hm : x.failing = some m)
      (hphase : m.phase = .delayed r draw delay) (hrec : Jobs.recordable m.args.error = true) :
      SharedStep s (.record k)
        (s.setTxn k (some (x.go m
          [(m.args.jobId, .reschedule (x.now + delay) m.args.error)] (.written r draw))))
  | raise {s : SharedJobs} {k : Nat} {x : Txn} {m : MarkingFailed} (hx : s.txns k = some x)
      (hm : x.failing = some m) :
      SharedStep s (.raise k) (s.setTxn k (x.raised m))
  | commit {s : SharedJobs} {k : Nat} {x : Txn} (hx : s.txns k = some x)
      (hdone : ∀ m, x.failing = some m → m.phase = .missed ∨ ∃ r draw, m.phase = .written r draw) :
      SharedStep s (.commit k) { s.setTxn k none with jobs := s.jobs.write x.own }
  | crash {s : SharedJobs} {k : Nat} {x : Txn} (hx : s.txns k = some x) :
      SharedStep s (.crash k) (s.setTxn k none)

def sharedJobs : System SharedJobs SharedAct where
  init s := ∀ k, s.txns k = none
  step := SharedStep

/-! ## One step for each call -/

/-- A call, or a row write of a caller's transaction. -/
inductive AtomicAct where
  | call (c : Call)
  | write (id : Nat) (u : SetClause)

/-- The table under calls that are one step each, `mark_failed` among them. -/
def atomicJobs : System Jobs AtomicAct where
  init _ := True
  step t a u := match a with
    | .call c => u = c.run t
    | .write id w => u = t.updateId id w

/-- What a transaction comes to when it commits: its caller's writes, and the call. -/
def Txn.effect (x : Txn) : List AtomicAct :=
  match x.failing with
  | some ⟨args, saved, .written _ draw⟩ =>
      saved.map (fun w ↦ .write w.1 w.2) ++ [.call (args.call x.now draw)]
  | _ => x.own.map fun w ↦ .write w.1 w.2

/-- A call shows itself, and a transaction what it comes to. -/
def SharedJobs.shows (s : SharedJobs) (a : SharedAct) (_ : SharedJobs) : List AtomicAct :=
  match a with
  | .call c => [.call c]
  | .commit k => (s.txns k).elim [] Txn.effect
  | _ => []

/-! ## The two UPDATEs as one call -/

section Call

variable {t : Jobs} {args : FailArgs} {r : Job} {now draw delay : Int}

-- Where the first UPDATE matches, the second one goes by the row that it returns.
theorem FailArgs.markFailed_eq (now draw : Int) (hr : t.row args.jobId = some r)
    (hheld : r.heldBy args.workerId = true)
    (hfits : fitsInt (args.count r).attempts = true ∧ args.maxAttempts.all fitsInt = true)
    (hrec : Jobs.recordable args.error = true) :
    t.markFailed (.alone now) args.jobId args.workerId args.error args.permanent args.maxAttempts
        draw =
      if args.lastAttempt (args.count r) then
        some (t.write [(args.jobId, args.count), (args.jobId, .bury now args.error)], true)
      else
        (Jobs.computeBackoff (args.count r).attempts draw).map fun delay ↦
          (t.write [(args.jobId, args.count), (args.jobId, .reschedule (now + delay) args.error)],
            true) := by
  have hcolumn : ¬ (!(fitsInt (SetClause.countFailure args.maxAttempts r).attempts &&
      args.maxAttempts.all fitsInt)) = true := by
    rw [show fitsInt (SetClause.countFailure args.maxAttempts r).attempts = true from hfits.1,
      hfits.2]
    exact Bool.false_ne_true
  unfold Jobs.markFailed
  rw [hr, Option.filter_some, if_pos hheld, Jobs.updateHeld_eq_updateId _ hr hheld]
  simp only [Option.map_some]
  rw [if_neg hcolumn]
  unfold FailArgs.lastAttempt FailArgs.count
  simp only [if_pos hrec]
  split
  · rfl
  · cases Jobs.computeBackoff (SetClause.countFailure args.maxAttempts r).attempts draw <;> rfl

theorem FailArgs.run_bury (hr : t.row args.jobId = some r) (hheld : r.heldBy args.workerId = true)
    (hfits : fitsInt (args.count r).attempts = true ∧ args.maxAttempts.all fitsInt = true)
    (hlast : args.lastAttempt (args.count r) = true) (hrec : Jobs.recordable args.error = true) :
    (args.call now draw).run t =
      t.write [(args.jobId, args.count), (args.jobId, .bury now args.error)] := by
  simp only [FailArgs.call, Call.run, FailArgs.markFailed_eq now draw hr hheld hfits hrec]
  rw [if_pos hlast, Option.map_some, Option.getD_some]

theorem FailArgs.run_reschedule (hr : t.row args.jobId = some r)
    (hheld : r.heldBy args.workerId = true)
    (hfits : fitsInt (args.count r).attempts = true ∧ args.maxAttempts.all fitsInt = true)
    (hmore : args.lastAttempt (args.count r) = false)
    (hdelay : Jobs.computeBackoff (args.count r).attempts draw = some delay)
    (hrec : Jobs.recordable args.error = true) :
    (args.call now draw).run t =
      t.write [(args.jobId, args.count), (args.jobId, .reschedule (now + delay) args.error)] := by
  simp only [FailArgs.call, Call.run, FailArgs.markFailed_eq now draw hr hheld hfits hrec]
  rw [if_neg (Bool.eq_false_iff.mp hmore), hdelay, Option.map_some, Option.map_some,
    Option.getD_some]

end Call

/-! ## What a transaction that has counted the failure relies on -/

/-- The row that the first UPDATE has matched. -/
def FailPhase.row : FailPhase → Option Job
  | .counted r => some r
  | .delayed r _ _ => some r
  | .written r _ => some r
  | _ => none

/-- Underneath the two UPDATEs the row is still the one that the first of them matched. -/
structure Matched (t : Jobs) (m : MarkingFailed) (r : Job) : Prop where
  row : (t.write m.saved).row m.args.jobId = some r
  held : r.heldBy m.args.workerId = true

/-- What the transaction has written of `mark_failed` so far. -/
def Progress (x : Txn) (m : MarkingFailed) : Prop :=
  let counted : Nat × SetClause := (m.args.jobId, m.args.count)
  match m.phase with
  | .waiting => x.own = m.saved
  | .missed => x.own = m.saved
  | .counted r => x.own = m.saved ++ [counted] ∧
      fitsInt (m.args.count r).attempts = true ∧ m.args.maxAttempts.all fitsInt = true
  | .delayed r draw delay => x.own = m.saved ++ [counted] ∧
      (fitsInt (m.args.count r).attempts = true ∧ m.args.maxAttempts.all fitsInt = true) ∧
      m.args.lastAttempt (m.args.count r) = false ∧
      Jobs.computeBackoff (m.args.count r).attempts draw = some delay
  | .written r draw => ∃ u, x.own = m.saved ++ [counted, (m.args.jobId, u)] ∧
      ∀ t : Jobs, t.row m.args.jobId = some r → r.heldBy m.args.workerId = true →
        (m.args.call x.now draw).run t = t.write [counted, (m.args.jobId, u)]

section Progress

variable {x : Txn} {m : MarkingFailed} {r : Job} {id : Nat}

-- What `mark_failed` adds comes after what was there.
theorem Progress.own (h : Progress x m) : ∃ ws, x.own = m.saved ++ ws ∧
    (m.phase.row.isSome → m.args.jobId ∈ ws.map Prod.fst) := by
  unfold Progress at h
  cases hphase : m.phase with
  | waiting | missed =>
      rw [hphase] at h
      exact ⟨[], by rw [h, List.append_nil], nofun⟩
  | counted | delayed =>
      rw [hphase] at h
      exact ⟨_, h.1, fun _ ↦ List.mem_cons_self⟩
  | written =>
      rw [hphase] at h
      obtain ⟨u, hu, -⟩ := h
      exact ⟨_, hu, fun _ ↦ List.mem_cons_self⟩

theorem Progress.locks_saved (h : Progress x m) (hid : id ∈ m.saved.map Prod.fst) : x.locks id := by
  obtain ⟨ws, hown, -⟩ := h.own
  unfold Txn.locks
  rw [hown, List.map_append]
  exact List.mem_append_left _ hid

theorem Progress.locks_job (h : Progress x m) (hr : m.phase.row = some r) :
    x.locks m.args.jobId := by
  obtain ⟨ws, hown, hjob⟩ := h.own
  unfold Txn.locks
  rw [hown, List.map_append]
  exact List.mem_append_right _ (hjob (by rw [hr]; rfl))

end Progress

namespace SharedJobs

variable {s t : SharedJobs} {a : SharedAct} {k k' id : Nat} {x : Txn} {m : MarkingFailed} {r : Job}

structure Inv (s : SharedJobs) : Prop where
  disjoint : ∀ k k' x x' id, k ≠ k' → s.txns k = some x → s.txns k' = some x' → x.locks id →
    ¬ x'.locks id
  progress : ∀ k x m, s.txns k = some x → x.failing = some m → Progress x m
  matched : ∀ k x m r, s.txns k = some x → x.failing = some m → m.phase.row = some r →
    Matched s.jobs m r

-- A call that skips locked rows does not bring a new row either.
theorem row_of_skipped {c : Call} {u : Jobs} (hop : c.op.skipsLocked = true)
    (hlock : c.locked id = true) : (c.run u).row id = u.row id := by
  have hrow := c.run_row u id
  cases hu : u.row id with
  | none =>
      rw [hu] at hrow
      generalize (c.run u).row id = o at hrow ⊢
      cases hrow with
      | same => rfl
      | inserted henq =>
          cases hc : c.op with
          | enqueue | enqueueMany =>
              rw [hc] at hop
              cases hop
          | _ =>
              rw [hc] at henq
              cases henq
  | some r =>
      rw [hu] at hrow
      exact hrow.of_locked hop (by rw [Jobs.row_id hu, hlock])

/-- No other step changes a row that a transaction has locked. -/
theorem Inv.frozen (h : s.Inv) (hx : s.txns k = some x) (hid : x.locks id)
    (ha : SharedStep s a t) (hother : a.txn ≠ some k) : t.jobs.row id = s.jobs.row id := by
  cases ha with
  | @call c hlocks =>
      have hlock := hlocks k x id hx hid
      cases hop : c.op.skipsLocked with
      | true =>
          rw [hop, if_pos rfl] at hlock
          exact row_of_skipped hop hlock
      | false =>
          rw [hop, if_neg Bool.false_ne_true] at hlock
          exact hlock
  | @commit k' x' hx' hdone =>
      have hne : k ≠ k' := fun he ↦ hother (he ▸ rfl)
      exact Jobs.row_write_of_not_mem (h.disjoint k k' x x' id hne hx hx' hid)
  | begin | write | startAlone | startInside | miss | count | backoff | bury | reschedule | raise
  | crash => rfl

theorem setTxn_cases {o : Option Txn} (h : (s.setTxn k o).txns k' = some x) :
    k' = k ∧ o = some x ∨ k' ≠ k ∧ s.txns k' = some x := by
  by_cases hk : k' = k
  · subst hk
    exact Or.inl ⟨rfl, by simpa only [setTxn, Function.update_self] using h⟩
  · exact Or.inr ⟨hk, by simpa only [setTxn, Function.update_of_ne hk] using h⟩

/-! ## The invariant -/

-- A transaction moves on, and locks no more than it has or gets.
theorem Inv.set (h : s.Inv) {x' : Txn}
    (hlocks : ∀ id, x'.locks id → (∃ x, s.txns k = some x ∧ x.locks id) ∨ s.Free k id)
    (hprogress : ∀ m, x'.failing = some m → Progress x' m)
    (hmatched : ∀ m r, x'.failing = some m → m.phase.row = some r → Matched s.jobs m r) :
    (s.setTxn k (some x')).Inv := by
  -- neither a row of another transaction, nor one that another could then find locked
  have hapart {k' : Nat} {y : Txn} {id : Nat} (hk : k' ≠ k) (hy : s.txns k' = some y)
      (hid : x'.locks id) : ¬ y.locks id := by
    rcases hlocks id hid with ⟨x, hx, hold⟩ | hfree
    · exact h.disjoint k k' x y id (Ne.symm hk) hx hy hold
    · exact hfree k' y hk hy
  refine ⟨fun i j y z id hne hy hz hid ↦ ?_, fun i y m hy hm ↦ ?_, fun i y m r hy hm hr ↦ ?_⟩
  · rcases setTxn_cases hy with ⟨hi, heq⟩ | ⟨hi, hy⟩ <;>
      rcases setTxn_cases hz with ⟨hj, heq'⟩ | ⟨hj, hz⟩
    · exact absurd (hi.trans hj.symm) hne
    · obtain rfl := Option.some.inj heq
      exact hapart hj hz hid
    · obtain rfl := Option.some.inj heq'
      exact fun hid' ↦ hapart hi hy hid' hid
    · exact h.disjoint i j y z id hne hy hz hid
  · rcases setTxn_cases hy with ⟨rfl, heq⟩ | ⟨-, hy⟩
    · obtain rfl := Option.some.inj heq
      exact hprogress m hm
    · exact h.progress i y m hy hm
  · rcases setTxn_cases hy with ⟨rfl, heq⟩ | ⟨-, hy⟩
    · obtain rfl := Option.some.inj heq
      exact hmatched m r hm hr
    · exact h.matched i y m r hy hm hr

theorem Inv.drop (h : s.Inv) (k : Nat) : (s.setTxn k none).Inv := by
  have hold {i : Nat} {y : Txn} (hy : (s.setTxn k none).txns i = some y) : s.txns i = some y := by
    rcases setTxn_cases hy with ⟨-, heq⟩ | ⟨-, hy⟩
    · cases heq
    · exact hy
  exact ⟨fun i j y z id hne hy hz ↦ h.disjoint i j y z id hne (hold hy) (hold hz),
    fun i y m hy ↦ h.progress i y m (hold hy), fun i y m r hy ↦ h.matched i y m r (hold hy)⟩

-- The table changes, but for the locked rows.
theorem Inv.frame (h : s.Inv) {u : Jobs}
    (hrows : ∀ k x id, s.txns k = some x → x.locks id → u.row id = s.jobs.row id) :
    ({ s with jobs := u } : SharedJobs).Inv where
  disjoint := h.disjoint
  progress := h.progress
  matched k x m r hx hm hr := by
    obtain ⟨hrow, hheld⟩ := h.matched k x m r hx hm hr
    have hlock := (h.progress k x m hx hm).locks_job hr
    refine ⟨?_, hheld⟩
    rw [Jobs.row_write_congr m.saved (hrows k x _ hx hlock), hrow]

theorem mem_own_append {x : Txn} {ws : Writes} (h : id ∈ (x.own ++ ws).map Prod.fst) :
    x.locks id ∨ id ∈ ws.map Prod.fst := by
  rw [List.map_append] at h
  exact List.mem_append.mp h

-- The second UPDATE, whichever it is, finds its row locked by the first one.
theorem Inv.record (h : s.Inv) {m : MarkingFailed} {r : Job} {draw : Int} {u : SetClause}
    (hx : s.txns k = some x) (hm : x.failing = some m) (hrow : m.phase.row = some r)
    (hown : x.own = m.saved ++ [(m.args.jobId, m.args.count)])
    (hcall : ∀ t : Jobs, t.row m.args.jobId = some r → r.heldBy m.args.workerId = true →
      (m.args.call x.now draw).run t = t.write [(m.args.jobId, m.args.count), (m.args.jobId, u)]) :
    (s.setTxn k (some (x.go m [(m.args.jobId, u)] (.written r draw)))).Inv := by
  have hlock := (h.progress k x m hx hm).locks_job hrow
  have hmatched := h.matched k x m r hx hm hrow
  refine h.set (fun id hid ↦ ?_) (fun m' hm' ↦ ?_) fun m' r' hm' hr' ↦ ?_
  · rcases mem_own_append hid with hold | hnew
    · exact Or.inl ⟨x, hx, hold⟩
    · obtain rfl := List.mem_singleton.mp hnew
      exact Or.inl ⟨x, hx, hlock⟩
  · obtain rfl := Option.some.inj hm'
    refine ⟨u, ?_, hcall⟩
    exact (congrArg (· ++ _) hown).trans (List.append_assoc ..)
  · obtain rfl := Option.some.inj hm'
    obtain rfl := Option.some.inj hr'
    exact ⟨hmatched.row, hmatched.held⟩

theorem Inv.step (h : s.Inv) (ha : SharedStep s a t) : t.Inv := by
  cases ha with
  | @call c hlocks =>
      exact h.frame fun k x id hx hid ↦
        h.frozen hx hid (.call hlocks) (Option.some_ne_none k).symm
  | begin hnew =>
      refine h.set (fun id hid ↦ absurd hid List.not_mem_nil) (fun m hm ↦ ?_) fun m r hm ↦ ?_
      · cases hm
      · cases hm
  | @write k id u x hx hidle hfree =>
      refine h.set (fun id' hid' ↦ ?_) (fun m hm ↦ ?_) fun m r hm ↦ ?_
      · rcases mem_own_append hid' with hold | hnew
        · exact Or.inl ⟨x, hx, hold⟩
        · obtain rfl := List.mem_singleton.mp hnew
          exact Or.inr hfree
      · exact absurd (hidle.symm.trans hm) nofun
      · exact absurd (hidle.symm.trans hm) nofun
  | startAlone hnew =>
      refine h.set (fun id hid ↦ absurd hid List.not_mem_nil) (fun m hm ↦ ?_) fun m r hm hr ↦ ?_
      · obtain rfl := Option.some.inj hm
        exact rfl
      · obtain rfl := Option.some.inj hm
        cases hr
  | @startInside k args x hx hidle =>
      refine h.set (fun id hid ↦ Or.inl ⟨x, hx, hid⟩) (fun m hm ↦ ?_) fun m r hm hr ↦ ?_
      · obtain rfl := Option.some.inj hm
        exact rfl
      · obtain rfl := Option.some.inj hm
        cases hr
  | @miss k x m hx hm hphase hnone =>
      have hown := h.progress k x m hx hm
      unfold Progress at hown
      rw [hphase] at hown
      refine h.set (fun id hid ↦ ?_) (fun m' hm' ↦ ?_) fun m' r hm' hr ↦ ?_
      · exact Or.inl ⟨x, hx, (mem_own_append hid).resolve_right List.not_mem_nil⟩
      · obtain rfl := Option.some.inj hm'
        exact (List.append_nil _).trans hown
      · obtain rfl := Option.some.inj hm'
        cases hr
  | @count k x m r hx hm hphase hr hheld hfree hfits =>
      have hown := h.progress k x m hx hm
      unfold Progress at hown
      rw [hphase] at hown
      refine h.set (fun id hid ↦ ?_) (fun m' hm' ↦ ?_) fun m' r' hm' hr' ↦ ?_
      · rcases mem_own_append hid with hold | hnew
        · exact Or.inl ⟨x, hx, hold⟩
        · obtain rfl := List.mem_singleton.mp hnew
          exact Or.inr hfree
      · obtain rfl := Option.some.inj hm'
        exact ⟨congrArg (· ++ _) hown, hfits⟩
      · obtain rfl := Option.some.inj hm'
        obtain rfl := Option.some.inj hr'
        unfold seen at hr
        rw [hown] at hr
        exact ⟨hr, hheld⟩
  | @backoff k x m r draw delay hx hm hphase hmore hdelay =>
      have hown := h.progress k x m hx hm
      unfold Progress at hown
      rw [hphase] at hown
      obtain ⟨hown, hfits⟩ := hown
      have hmatched := h.matched k x m r hx hm (by rw [hphase]; rfl)
      refine h.set (fun id hid ↦ ?_) (fun m' hm' ↦ ?_) fun m' r' hm' hr' ↦ ?_
      · exact Or.inl ⟨x, hx, (mem_own_append hid).resolve_right List.not_mem_nil⟩
      · obtain rfl := Option.some.inj hm'
        exact ⟨(List.append_nil _).trans hown, hfits, hmore, hdelay⟩
      · obtain rfl := Option.some.inj hm'
        obtain rfl := Option.some.inj hr'
        exact ⟨hmatched.row, hmatched.held⟩
  | @bury k x m r hx hm hphase hlast hrec =>
      have hprogress := h.progress k x m hx hm
      unfold Progress at hprogress
      rw [hphase] at hprogress
      obtain ⟨hown, hfits⟩ := hprogress
      exact h.record hx hm (by rw [hphase]; rfl) hown fun t hr hheld ↦
        m.args.run_bury hr hheld hfits hlast hrec
  | @reschedule k x m r draw delay hx hm hphase hrec =>
      have hprogress := h.progress k x m hx hm
      unfold Progress at hprogress
      rw [hphase] at hprogress
      obtain ⟨hown, hfits, hmore, hdelay⟩ := hprogress
      exact h.record hx hm (by rw [hphase]; rfl) hown fun t hr hheld ↦
        m.args.run_reschedule hr hheld hfits hmore hdelay hrec
  | @raise k x m hx hm =>
      have hprogress := h.progress k x m hx hm
      unfold Txn.raised
      split
      · refine h.set (fun id hid ↦ Or.inl ⟨x, hx, hprogress.locks_saved hid⟩) (fun m' hm' ↦ ?_)
          fun m' r hm' ↦ ?_
        · cases hm'
        · cases hm'
      · exact h.drop k
  | @commit k x hx hdone =>
      refine (h.drop k).frame fun k' x' id hx' hid ↦ ?_
      rcases setTxn_cases hx' with ⟨-, heq⟩ | ⟨hk, hx'⟩
      · cases heq
      · exact Jobs.row_write_of_not_mem (h.disjoint k' k x' x id hk hx' hx hid)
  | crash hx => exact h.drop _

theorem inv_of_reachable (hs : sharedJobs.Reachable s) : s.Inv := by
  refine hs.invariant (fun s hs ↦ ?_) fun _ _ _ h ha ↦ h.step ha
  have hnone {k : Nat} {x : Txn} : s.txns k ≠ some x := by
    rw [hs k]
    exact nofun
  exact ⟨fun k _ x _ _ _ hx ↦ absurd hx hnone, fun k x m hx ↦ absurd hx hnone,
    fun k x m r hx ↦ absurd hx hnone⟩

/-! ## Every run as a run of single steps -/

theorem run_writes (t : Jobs) (ws : Writes) :
    atomicJobs.Run t (ws.map fun w ↦ .write w.1 w.2) (t.write ws) := by
  induction ws generalizing t with
  | nil => exact .nil t
  | cons w ws ih => exact .cons rfl (ih _)

-- At its commit a transaction does what it comes to.
theorem Inv.run_effect (h : s.Inv) (hx : s.txns k = some x)
    (hdone : ∀ m, x.failing = some m → m.phase = .missed ∨ ∃ r draw, m.phase = .written r draw) :
    atomicJobs.Run s.jobs x.effect (s.jobs.write x.own) := by
  unfold Txn.effect
  cases hm : x.failing with
  | none => exact run_writes s.jobs x.own
  | some m =>
      obtain ⟨args, saved, phase⟩ := m
      rcases hdone _ hm with hphase | ⟨r, draw, hphase⟩
      · obtain rfl := hphase
        exact run_writes s.jobs x.own
      · obtain rfl := hphase
        obtain ⟨hrow, hheld⟩ := h.matched k x _ r hx hm rfl
        obtain ⟨u, hown, hcall⟩ := h.progress k x _ hx hm
        refine (run_writes s.jobs saved).trans (.single ?_)
        change s.jobs.write x.own = (args.call x.now draw).run (s.jobs.write saved)
        rw [hcall _ hrow hheld, hown, Jobs.write_append]

theorem step_simulated (h : s.Inv) (ha : SharedStep s a t) :
    atomicJobs.Run s.jobs (s.shows a t) t.jobs := by
  cases ha with
  | call => exact .single rfl
  | @commit k x hx hdone =>
      change atomicJobs.Run s.jobs ((s.txns k).elim [] Txn.effect) _
      rw [hx]
      exact h.run_effect hx hdone
  | begin | write | startAlone | startInside | miss | count | backoff | bury | reschedule | raise
  | crash => exact .nil _

/-- Whatever the interleaving, each `mark_failed` whose transaction commits is one step of the table
at that commit, and the others are none.  Until then, no other step changes the row that its first
UPDATE has matched. -/
theorem markFailed_atomic {jobs : Jobs} {es : List AtomicAct}
    (h : sharedJobs.Observed shows (.start jobs) es s) :
    atomicJobs.Run jobs es s.jobs ∧
      ∀ k x m r, s.txns k = some x → x.failing = some m → m.phase.row = some r →
        Matched s.jobs m r ∧ ∀ a t, SharedStep s a t → a.txn ≠ some k →
          t.jobs.row m.args.jobId = s.jobs.row m.args.jobId := by
  have hstart : sharedJobs.Reachable (.start jobs) := .init fun _ ↦ rfl
  have hinv := inv_of_reachable (h.reachable hstart)
  constructor
  · obtain ⟨u, hrun, -, rfl⟩ := h.simulated (A := atomicJobs) (fun s t ↦ s.Inv ∧ s.jobs = t)
      (fun s a t u hs ha ↦ ⟨t.jobs, hs.2 ▸ step_simulated hs.1 ha, hs.1.step ha, rfl⟩)
      ⟨inv_of_reachable hstart, rfl⟩
    exact hrun
  · intro k x m r hx hm hr
    have hlock := (hinv.progress k x m hx hm).locks_job hr
    exact ⟨hinv.matched k x m r hx hm hr, fun a t ha hother ↦ hinv.frozen hx hlock ha hother⟩

/-- The sweep of another worker, while the row is locked. -/
def sweepInTheGap : Call := ⟨⟨seconds 100, fun _ ↦ true, fun k ↦ k⟩, .recoverExpired 100⟩

def boom : FailArgs := ⟨1, "w", toPyStr "boom", false, none⟩

/-- Its `mark_failed`, on an autocommit connection. -/
def boomTxn (own : Writes) (phase : FailPhase) : Txn :=
  ⟨seconds 90, false, own, some ⟨boom, [], phase⟩⟩

def counted : Writes := [(1, boom.count)]

def rescheduled : Writes := counted ++ [(1, .reschedule (seconds 90) boom.error)]

-- The sweep comes between the two UPDATEs.
theorem observed_sweptInTheGap :
    ∃ s, sharedJobs.Observed shows (.start claimedJobs)
      [.call sweepInTheGap, .call (boom.call (seconds 90) 0)] s := by
  have hfree (x : Txn) : ((SharedJobs.start claimedJobs).setTxn 0 (some x)).Free 0 1 := by
    intro k' y hk hy
    rcases setTxn_cases hy with ⟨rfl, -⟩ | ⟨-, hy⟩
    · exact absurd rfl hk
    · cases hy
  let s₁ := (SharedJobs.start claimedJobs).setTxn 0 (boomTxn [] .waiting)
  let s₂ := s₁.setTxn 0 (boomTxn counted (.counted claimedRow))
  let s₃ : SharedJobs := { s₂ with jobs := sweepInTheGap.run s₂.jobs }
  let s₄ := s₃.setTxn 0 (boomTxn counted (.delayed claimedRow 0 0))
  let s₅ := s₄.setTxn 0 (boomTxn rescheduled (.written claimedRow 0))
  have h₁ : SharedStep (.start claimedJobs) (.start 0 (seconds 90) boom) s₁ := .startAlone rfl
  have h₂ : SharedStep s₁ (.count 0) s₂ :=
    .count (x := boomTxn [] .waiting) rfl rfl rfl rfl rfl (hfree _) ⟨rfl, rfl⟩
  have h₃ : SharedStep s₂ (.call sweepInTheGap) s₃ := .call fun _ _ _ _ _ ↦ rfl
  have h₄ : SharedStep s₃ (.backoff 0 0) s₄ :=
    .backoff (x := boomTxn counted (.counted claimedRow)) rfl rfl rfl rfl (by decide)
  have h₅ : SharedStep s₄ (.record 0) s₅ :=
    .reschedule (x := boomTxn counted (.delayed claimedRow 0 0)) rfl rfl rfl rfl
  have h₆ : SharedStep s₅ (.commit 0)
      { s₅.setTxn 0 none with jobs := s₅.jobs.write rescheduled } := by
    refine .commit (x := boomTxn rescheduled (.written claimedRow 0)) rfl fun m hm ↦ ?_
    obtain rfl := Option.some.inj hm
    exact Or.inr ⟨claimedRow, 0, rfl⟩
  have hrun : sharedJobs.Observed shows (.start claimedJobs) _ _ :=
    .cons h₁ (.cons h₂ (.cons h₃ (.cons h₄ (.cons h₅ (.cons h₆ (.nil _))))))
  exact ⟨_, hrun⟩

/-- The sweep has skipped the row, and the failure is recorded. -/
theorem markFailed_atomic_swept :
    ∃ s : SharedJobs, atomicJobs.Run claimedJobs
      [.call sweepInTheGap, .call (boom.call (seconds 90) 0)] s.jobs := by
  obtain ⟨s, hs⟩ := observed_sweptInTheGap
  exact ⟨s, (markFailed_atomic hs).1⟩

end SharedJobs

end DurableQueue
