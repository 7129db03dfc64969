import DurableQueue.Worker.Coverage
import DurableQueue.Worker.RunJob

/-!
# The ledger

What each run of a job has been given and how its task has ended, and which failures of a job have
been recorded since it was created or last retried, kept beside the worker processes.  Every
terminal status, and every attempt, is accounted for in it.
-/

open Reasoning

namespace DurableQueue

inductive Outcome where
  | returned
  | raised (permanent : Bool)
  deriving DecidableEq

/-- A run is known by its job and the number of its claim: `got` is what the claim has returned,
and `failures` are the runs whose failure is recorded. -/
structure Ledger where
  fleet : Fleet
  got : Nat × Nat → Option ClaimedJob
  outcome : Nat × Nat → Option Outcome
  failures : Nat → List Nat

inductive LedgerStep where
  | fleet (a : FleetStep)
  | returns (r : Run)
  | raises (r : Run) (permanent : Bool)

namespace Ledger

/-- `got` after a claim with these rows. -/
def claimed (s : Ledger) (rows : List (Nat × String × Json)) : Nat × Nat → Option ClaimedJob :=
  fun key ↦
    match rows.find? fun row ↦ decide (row.1 = key.1) with
    | some row =>
        if key.2 = (s.fleet.claimants key.1).length then some ⟨row.1, row.2.1, row.2.2⟩
        else s.got key
    | none => s.got key

/-- `failures` after a call that is no outcome. -/
def called (s : Ledger) (c : Call) : Nat → List Nat :=
  match c.op with
  | .retryJob id =>
      if (s.fleet.jobs.retryJob c.toCtx id).2 then Function.update s.failures id []
      else s.failures
  | _ => s.failures

/-- `failures` after a `mark_failed`. -/
def failed (s : Ledger) (r : Run) (result : Option (Jobs × Bool)) : Nat → List Nat :=
  match result with
  | some (_, true) => Function.update s.failures r.job (s.failures r.job ++ [r.claim])
  | _ => s.failures

def next (s : Ledger) : LedgerStep → Ledger
  | .fleet (.call c) => { s with fleet := s.fleet.call c, failures := s.called c }
  | .fleet (.claim ctx w lease batch seen) =>
      { s with
        fleet := s.fleet.claim ctx w lease batch seen
        got := s.claimed (s.fleet.jobs.claimJobs ctx w lease batch).2 }
  | .fleet (.fail r ctx error permanent maxAttempts draw) =>
      { s with
        fleet := s.fleet.next (.fail r ctx error permanent maxAttempts draw)
        failures := s.failed r
          (s.fleet.jobs.markFailed ctx r.job r.worker error permanent maxAttempts draw) }
  | .fleet a => { s with fleet := s.fleet.next a }
  | .returns r => { s with outcome := Function.update s.outcome r.key (some .returned) }
  | .raises r permanent =>
      { s with
        fleet := s.fleet.next (.raise r)
        outcome := Function.update s.outcome r.key (some (.raised permanent)) }

/-- What `run_job` calls depends on how the task has ended. -/
def follows (s : Ledger) : FleetStep → Prop
  | .succeed r _ _ => s.outcome r.key = some .returned
  -- `mark_succeeded` has raised, or its transaction's commit
  | .raise r => s.outcome r.key = some .returned
  | .fail r _ _ permanent _ _ => permanent = decide (s.outcome r.key = some (.raised true))
  | _ => True

def enabled (s : Ledger) : LedgerStep → Prop
  | .fleet a => s.fleet.enabled a ∧ s.follows a
  | .returns r => (r ∈ s.fleet.runs ∧ Fleet.isExecuting r.phase) ∧ s.outcome r.key = none
  -- an unregistered task is no `PermanentError`
  | .raises r permanent =>
      (s.fleet.enabled (.raise r) ∧ (r.phase = .taken → permanent = false)) ∧
        s.outcome r.key = none

instance (s : Ledger) : DecidablePred s.follows
  | .succeed r _ _ => inferInstanceAs (Decidable (s.outcome r.key = some .returned))
  | .raise r => inferInstanceAs (Decidable (s.outcome r.key = some .returned))
  | .fail r _ _ permanent _ _ =>
      inferInstanceAs (Decidable (permanent = decide (s.outcome r.key = some (.raised true))))
  | .call _ | .claim .. | .hold _ | .take _ | .start .. | .abandon _ | .finish _ | .drain _
  | .letGo _ | .crash _ => inferInstanceAs (Decidable True)

instance (s : Ledger) : DecidablePred s.enabled
  | .fleet a => inferInstanceAs (Decidable (s.fleet.enabled a ∧ s.follows a))
  | .returns r =>
      inferInstanceAs (Decidable ((r ∈ s.fleet.runs ∧ Fleet.isExecuting r.phase) ∧
        s.outcome r.key = none))
  | .raises r permanent =>
      inferInstanceAs (Decidable ((s.fleet.enabled (.raise r) ∧
        (r.phase = .taken → permanent = false)) ∧ s.outcome r.key = none))

def start : Ledger := ⟨.start, fun _ ↦ none, fun _ ↦ none, fun _ ↦ []⟩

/-! ## What is kept -/

structure Earned (s : Ledger) (id : Nat) (x : Job) : Prop where
  succeeded : x.status = .succeeded → ∃ n, s.got (id, n) = some ⟨id, x.task, x.args⟩ ∧
    s.outcome (id, n) = some .returned
  dead : x.status = .dead → (∃ n ∈ s.failures id, s.outcome (id, n) = some (.raised true)) ∨
    x.maxAttempts ≤ (s.failures id).length ∨ x.maxRecoveries ≤ x.recoveries
  attempts : x.attempts = (s.failures id).length

structure Kept (s : Ledger) : Prop where
  recorded : s.fleet.Recorded
  keyed : s.fleet.Keyed
  got : ∀ id n job, s.got (id, n) = some job →
    n < (s.fleet.claimants id).length ∧ id < s.fleet.jobs.nextId ∧
      ∀ x, s.fleet.jobs.row id = some x → job = ⟨id, x.task, x.args⟩
  known : ∀ r ∈ s.fleet.runs, ∃ job, s.got r.key = some job
  numbered : ∀ id, ∀ n ∈ s.failures id,
    n < (s.fleet.claimants id).length ∧ id < s.fleet.jobs.nextId
  once : ∀ id, (s.failures id).Nodup
  spent : ∀ r ∈ s.fleet.runs, r.claim ∈ s.failures r.job → r.phase = .settled
  earned : ∀ id x, s.fleet.jobs.row id = some x → s.Earned id x

variable {s t : Ledger} {id : Nat} {x x' : Job} {r : Run}

-- What the ledger has, it keeps.
theorem Earned.mono (h : s.Earned id x)
    (hgot : ∀ n job, s.got (id, n) = some job → t.got (id, n) = some job)
    (houtcome : ∀ n outcome, s.outcome (id, n) = some outcome → t.outcome (id, n) = some outcome)
    (hfailures : t.failures id = s.failures id) : t.Earned id x := by
  refine ⟨fun hs ↦ ?_, fun hs ↦ ?_, hfailures ▸ h.attempts⟩
  · obtain ⟨n, hn, hreturned⟩ := h.succeeded hs
    exact ⟨n, hgot n _ hn, houtcome n _ hreturned⟩
  · rw [hfailures]
    refine (h.dead hs).imp_left ?_
    rintro ⟨n, hn, hraised⟩
    exact ⟨n, hn, houtcome n _ hraised⟩

/-! ## Runs that move along -/

theorem Kept.move (h : s.Kept) {f : Fleet} (hjobs : f.jobs = s.fleet.jobs)
    (hclaimants : f.claimants = s.fleet.claimants) (hrecorded : f.Recorded) (hkeyed : f.Keyed)
    (hruns : ∀ r ∈ f.runs, ∃ x ∈ s.fleet.runs, r.key = x.key ∧
      (x.phase = .settled → r.phase = .settled)) : Kept { s with fleet := f } := by
  refine ⟨hrecorded, hkeyed, ?_, fun r hr ↦ ?_, ?_, h.once, fun r hr hspent ↦ ?_, ?_⟩
  · rw [hjobs, hclaimants]
    exact h.got
  · obtain ⟨x, hx, hkey, -⟩ := hruns r hr
    rw [hkey]
    exact h.known x hx
  · rw [hjobs, hclaimants]
    exact h.numbered
  · obtain ⟨x, hx, hkey, hphase⟩ := hruns r hr
    refine hphase (h.spent x hx ?_)
    rw [← show r.job = x.job from congrArg Prod.fst hkey,
      ← show r.claim = x.claim from congrArg Prod.snd hkey]
    exact hspent
  · intro id x hx
    rw [hjobs] at hx
    exact (h.earned id x hx).mono (fun _ _ hn ↦ hn) (fun _ _ hn ↦ hn) rfl

-- A run whose outcome is not settled yet goes on.
theorem runs_setPhase (h : s.Kept) (hr : r ∈ s.fleet.runs) (hphase : r.phase ≠ .settled)
    (phase : Phase) : ∀ x ∈ (s.fleet.setPhase r phase).runs, ∃ y ∈ s.fleet.runs, x.key = y.key ∧
      (y.phase = .settled → x.phase = .settled) := by
  intro x hx
  obtain ⟨y, hy, ⟨hkey, rfl⟩ | ⟨-, rfl⟩⟩ := Fleet.mem_setPhase hx
  · refine ⟨y, hy, rfl, fun hsettled ↦ ?_⟩
    rw [h.keyed r hr y hy hkey] at hsettled
    exact absurd hsettled hphase
  · exact ⟨x, hy, rfl, fun hsettled ↦ hsettled⟩

theorem Kept.setPhase (h : s.Kept) (hr : r ∈ s.fleet.runs) (hphase : r.phase ≠ .settled)
    (phase : Phase) : Kept { s with fleet := s.fleet.setPhase r phase } :=
  h.move rfl rfl (h.recorded.setPhase r phase) (h.keyed.updateRows rfl)
    (runs_setPhase h hr hphase phase)

theorem Kept.setDeadlines (h : s.Kept) (w : WorkerId) (m : Deadlines) :
    Kept { s with fleet := s.fleet.setDeadlines w m } :=
  h.move rfl rfl (h.recorded.setDeadlines w m) h.keyed fun r hr ↦ ⟨r, hr, rfl, id⟩

theorem Kept.without (h : s.Kept) (p : Run → Bool) : Kept { s with fleet := s.fleet.without p } :=
  h.move rfl rfl (h.recorded.without p) (h.keyed.of_subset fun _ hx ↦ (List.mem_filter.mp hx).1)
    fun r hr ↦ ⟨r, (List.mem_filter.mp hr).1, rfl, id⟩

theorem Kept.hold (h : s.Kept) (w : WorkerId) : Kept { s with fleet := s.fleet.hold w } := by
  refine h.move rfl rfl (h.recorded.next (a := .hold w) trivial)
    (h.keyed.next h.recorded (.hold w)) fun r hr ↦ ?_
  obtain ⟨y, hy, ⟨hbatch, rfl⟩ | ⟨-, rfl⟩⟩ := mem_updateRows hr
  · refine ⟨y, hy, rfl, fun hsettled ↦ ?_⟩
    rw [Fleet.inBatch, decide_eq_true_eq] at hbatch
    cases hbatch.2.symm.trans hsettled
  · exact ⟨r, hy, rfl, fun hsettled ↦ hsettled⟩

/-! ## Calls -/

theorem frame_of_lt {u : Jobs} (c : Call) (hid : id < u.nextId)
    (hx' : (c.run u).row id = some x') :
    ∃ x, u.row id = some x ∧ x'.task = x.task ∧ x'.args = x.args := by
  cases hx : u.row id with
  | none => cases hx'.symm.trans ((c.run_of_lt hid).2 hx)
  | some x =>
      have hchange := c.run_row u id
      rw [hx, hx'] at hchange
      exact ⟨x, rfl, hchange.frame.1.2.1, hchange.frame.1.2.2.1⟩

theorem Kept.got_call (h : s.Kept) (c : Call) {n : Nat} {job : ClaimedJob}
    (hgot : s.got (id, n) = some job) :
    n < (s.fleet.claimants id).length ∧ id < (c.run s.fleet.jobs).nextId ∧
      ∀ x, (c.run s.fleet.jobs).row id = some x → job = ⟨id, x.task, x.args⟩ := by
  obtain ⟨hlt, hid, hjob⟩ := h.got id n job hgot
  refine ⟨hlt, (c.run_of_lt hid).1, fun x' hx' ↦ ?_⟩
  obtain ⟨x, hx, htask, hargs⟩ := frame_of_lt c hid hx'
  rw [hjob x hx, htask, hargs]

-- What a call does to the ledger is what it does to `failures`.
theorem Kept.call (h : s.Kept) {c : Call} {failures : Nat → List Nat}
    (hc : ∀ w lease batch, c.op ≠ .claimJobs w lease batch)
    (hfailures : ∀ id, failures id = s.failures id ∨ failures id = [])
    (hearned : ∀ id x', (c.run s.fleet.jobs).row id = some x' →
      Earned { s with fleet := s.fleet.call c, failures := failures } id x') :
    Kept { s with fleet := s.fleet.call c, failures := failures } := by
  have hmem {id n : Nat} (hn : n ∈ failures id) : n ∈ s.failures id := by
    rcases hfailures id with hsame | hnil
    · exact hsame ▸ hn
    · rw [hnil] at hn
      cases hn
  refine ⟨h.recorded.call hc, h.keyed, fun id n job hgot ↦ h.got_call c hgot, h.known,
    fun id n hn ↦ ?_, fun id ↦ ?_, fun r hr hspent ↦ h.spent r hr (hmem hspent), hearned⟩
  · obtain ⟨hlt, hid⟩ := h.numbered id n (hmem hn)
    exact ⟨hlt, (c.run_of_lt hid).1⟩
  · dsimp only
    rcases hfailures id with hsame | hnil
    · rw [hsame]
      exact h.once id
    · rw [hnil]
      exact List.nodup_nil

-- Nothing has failed under an id that no row has had.
theorem Kept.failures_of_fresh (h : s.Kept) (hid : ¬ id < s.fleet.jobs.nextId) :
    s.failures id = [] := by
  rw [List.eq_nil_iff_forall_not_mem]
  exact fun n hn ↦ hid (h.numbered id n hn).2

-- A call that is no outcome and no retry earns nothing, and buries a job only over its recoveries.
theorem Kept.earned_call (h : s.Kept) {c : Call} (hc : c.op.ofRun = false)
    (hretry : ∀ id, c.op ≠ .retryJob id) {x' : Job}
    (hx' : (c.run s.fleet.jobs).row id = some x') : s.Earned id x' := by
  have hchange := c.run_row s.fleet.jobs id
  have hfresh : s.fleet.jobs.row id = none → s.failures id = [] := fun hnone ↦
    h.failures_of_fresh fun hlt ↦ by cases hx'.symm.trans ((c.run_of_lt hlt).2 hnone)
  have hold := h.earned id
  rw [hx'] at hchange
  generalize s.fleet.jobs.row id = before at hchange hfresh hold
  cases hchange with
  | same => exact hold x' rfl
  | inserted hop =>
      exact ⟨nofun, nofun, (congrArg List.length (hfresh rfl)).symm⟩
  | claimed hop => rw [hop] at hc; cases hc
  | extended hop hheld => exact ⟨(hold _ rfl).succeeded, (hold _ rfl).dead, (hold _ rfl).attempts⟩
  | @deadLettered x batch hop hexp hpoison hfree =>
      refine ⟨nofun, fun _ ↦ Or.inr (Or.inr ?_), (hold _ rfl).attempts⟩
      exact of_decide_eq_true hpoison
  | recovered => exact ⟨nofun, nofun, (hold _ rfl).attempts⟩
  | released => exact ⟨nofun, nofun, (hold _ rfl).attempts⟩
  | succeeded hop => rw [hop] at hc; cases hc
  | failed hop => rw [hop] at hc; cases hc
  | retried hop => exact absurd hop (hretry _)

theorem Kept.retry (h : s.Kept) (ctx : Ctx) (job : Nat) :
    Kept (s.next (.fleet (.call ⟨ctx, .retryJob job⟩))) := by
  have hresult : s.called ⟨ctx, .retryJob job⟩ =
      if (s.fleet.jobs.row job).any fun x ↦ decide (x.status = .dead) then
        Function.update s.failures job []
      else s.failures := rfl
  refine h.call (fun w lease batch hop ↦ by cases hop) (fun id ↦ ?_) fun id x' hx' ↦ ?_
  · rw [hresult]
    split
    · by_cases hid : id = job
      · exact Or.inr (hid ▸ Function.update_self ..)
      · exact Or.inl (Function.update_of_ne hid ..)
    · exact Or.inl rfl
  · change (s.fleet.jobs.update _ _).row id = some x' at hx'
    rw [Jobs.row_update] at hx'
    obtain ⟨x, hx, rfl⟩ := Option.map_eq_some_iff.mp hx'
    have hearned := h.earned id x hx
    have hxid : x.id = id := Jobs.row_id hx
    by_cases hid : id = job
    · subst hid
      by_cases hdead : x.status = .dead
      · have hnil : s.called ⟨ctx, .retryJob id⟩ id = [] := by
          rw [hresult, hx, Option.any_some, if_pos (decide_eq_true hdead), Function.update_self]
        rw [if_pos (by rw [decide_eq_true hxid, decide_eq_true hdead]; rfl)]
        exact ⟨nofun, nofun, (congrArg List.length hnil).symm⟩
      · rw [if_neg (by rw [decide_eq_false hdead, Bool.and_false]; exact Bool.false_ne_true)]
        refine hearned.mono (fun _ _ hn ↦ hn) (fun _ _ hn ↦ hn) ?_
        change s.called ⟨ctx, .retryJob id⟩ id = s.failures id
        rw [hresult, hx, Option.any_some, if_neg (by simpa using hdead)]
    · rw [if_neg (by rw [hxid, decide_eq_false hid, Bool.false_and]; exact Bool.false_ne_true)]
      refine hearned.mono (fun _ _ hn ↦ hn) (fun _ _ hn ↦ hn) ?_
      change s.called ⟨ctx, .retryJob job⟩ id = s.failures id
      rw [hresult]
      split
      · exact Function.update_of_ne hid ..
      · rfl

theorem Kept.quiet (h : s.Kept) {c : Call} (hc : c.op.ofRun = false) :
    Kept (s.next (.fleet (.call c))) := by
  obtain ⟨ctx, op⟩ := c
  cases op with
  | retryJob job => exact h.retry ctx job
  | claimJobs | markSucceeded | markFailed => cases hc
  | _ =>
      refine h.call (fun w lease batch hop ↦ by cases hop) (fun _ ↦ Or.inl rfl)
        fun id x' hx' ↦ ?_
      exact (h.earned_call hc (fun _ hop ↦ by cases hop) hx').mono (fun _ _ hn ↦ hn)
        (fun _ _ hn ↦ hn) rfl

/-! ## Claims -/

theorem claimed_cases {rows : List (Nat × String × Json)} {n : Nat} {job : ClaimedJob}
    (h : s.claimed rows (id, n) = some job) :
    s.got (id, n) = some job ∨
      n = (s.fleet.claimants id).length ∧
        ∃ row ∈ rows, row.1 = id ∧ job = ⟨id, row.2.1, row.2.2⟩ := by
  unfold claimed at h
  cases hfind : rows.find? fun row ↦ decide (row.1 = id) with
  | none =>
      rw [hfind] at h
      exact Or.inl h
  | some row =>
      rw [hfind] at h
      have hid : decide (row.1 = id) = true :=
        @List.find?_some _ (fun row ↦ decide (row.1 = id)) row rows hfind
      rw [decide_eq_true_eq] at hid
      dsimp only at h
      by_cases hn : n = (s.fleet.claimants id).length
      · rw [if_pos hn] at h
        exact Or.inr ⟨hn, row, List.mem_of_find?_eq_some hfind, hid,
          (Option.some.inj h).symm.trans (by rw [hid])⟩
      · exact Or.inl ((if_neg hn).symm.trans h)

theorem claimed_of_lt {rows : List (Nat × String × Json)} {n : Nat}
    (hn : n < (s.fleet.claimants id).length) : s.claimed rows (id, n) = s.got (id, n) := by
  unfold claimed
  split
  · exact if_neg hn.ne
  · rfl

theorem claimed_self {rows : List (Nat × String × Json)} (hid : id ∈ rows.map (·.1)) :
    ∃ job, s.claimed rows (id, (s.fleet.claimants id).length) = some job := by
  obtain ⟨row, hrow, rfl⟩ := List.mem_map.mp hid
  unfold claimed
  cases hfind : rows.find? fun row' ↦ decide (row'.1 = row.1) with
  | none => exact absurd (decide_eq_true rfl) (List.find?_eq_none.mp hfind row hrow)
  | some row' => exact ⟨_, if_pos rfl⟩

theorem row_of_claimed {u : Jobs} {ctx : Ctx} {w : WorkerId} {lease : Int} {batch : Nat}
    {row : Nat × String × Json} (h : row ∈ (u.claimJobs ctx w lease batch).2) :
    ∃ x, u.row row.1 = some x ∧ row.2 = (x.task, x.args) := by
  rw [(u.claimJobs_perm ctx w lease batch).mem_iff] at h
  obtain ⟨x, hx, rfl⟩ := List.mem_map.mp h
  exact ⟨x, Jobs.row_of_mem (Jobs.mem_selectForUpdate hx).1, rfl⟩

theorem lt_nextId {u : Jobs} (hx : u.row id = some x) : id < u.nextId := by
  rw [← Jobs.row_id hx]
  exact u.idsLt x (Jobs.row_mem hx)

-- A claim earns nothing.
theorem Kept.earned_claim (h : s.Kept) {ctx : Ctx} {w : WorkerId} {lease : Int} {batch : Nat}
    (hx' : (s.fleet.jobs.claimJobs ctx w lease batch).1.row id = some x') : s.Earned id x' := by
  rcases Jobs.row_claimJobs s.fleet.jobs id ctx w lease batch with hsame | ⟨x, -, hx, hnew⟩
  · exact h.earned id x' (hsame.symm.trans hx')
  · obtain rfl := Option.some.inj (hnew.symm.trans hx')
    exact ⟨nofun, nofun, (h.earned id x hx).attempts⟩

theorem Kept.claim (h : s.Kept) (ctx : Ctx) (w : WorkerId) (lease : Int) (batch : Nat)
    (seen : Bool) : Kept (s.next (.fleet (.claim ctx w lease batch seen))) := by
  generalize hrows : (s.fleet.jobs.claimJobs ctx w lease batch).2 = rows
  have hclaimants : ∀ id, (s.fleet.claim ctx w lease batch seen).claimants id =
      if id ∈ rows.map (·.1) then s.fleet.claimants id ++ [w] else s.fleet.claimants id := by
    rw [← hrows]
    exact fun id ↦ rfl
  have hgrows : ∀ {n id : Nat}, n < (s.fleet.claimants id).length →
      n < ((s.fleet.claim ctx w lease batch seen).claimants id).length := by
    intro n id hn
    rw [hclaimants]
    split
    · rw [List.length_append]
      omega
    · exact hn
  have hnext : next s (.fleet (.claim ctx w lease batch seen)) =
      { s with fleet := s.fleet.claim ctx w lease batch seen, got := s.claimed rows } := by
    rw [← hrows]
    rfl
  rw [hnext]
  let c : Call := ⟨ctx, .claimJobs w lease batch⟩
  refine ⟨h.recorded.claim ctx w lease batch seen, h.keyed.claim h.recorded ctx w lease batch seen,
    fun id n job hgot ↦ ?_, fun r hr ↦ ?_, fun id n hn ↦ ?_, h.once, fun r hr hspent ↦ ?_,
    fun id x' hx' ↦ ?_⟩
  · rcases claimed_cases hgot with hold | ⟨rfl, row, hrow, rfl, rfl⟩
    · obtain ⟨hlt, hrest⟩ := h.got_call c hold
      exact ⟨hgrows hlt, hrest⟩
    · have hin : row.1 ∈ rows.map (·.1) := List.mem_map_of_mem hrow
      obtain ⟨x, hx, hdata⟩ := row_of_claimed (hrows ▸ hrow)
      refine ⟨?_, (c.run_of_lt (lt_nextId hx)).1, fun x' hx' ↦ ?_⟩
      · rw [hclaimants, if_pos hin, List.length_append]
        exact Nat.lt_succ_self _
      · obtain ⟨y, hy, htask, hargs⟩ := frame_of_lt c (lt_nextId hx) hx'
        obtain rfl := Option.some.inj (hx.symm.trans hy)
        rw [hdata, htask, hargs]
  · rcases Fleet.mem_claim_runs hr with hold | ⟨id, hid, rfl⟩
    · obtain ⟨job, hjob⟩ := h.known r hold
      exact ⟨job, (claimed_of_lt (h.recorded.claim_lt hold)).trans hjob⟩
    · exact claimed_self (hrows ▸ hid)
  · obtain ⟨hlt, hid⟩ := h.numbered id n hn
    exact ⟨hgrows hlt, (c.run_of_lt hid).1⟩
  · rcases Fleet.mem_claim_runs hr with hold | ⟨id, -, rfl⟩
    · exact h.spent r hold hspent
    · exact absurd (h.numbered id _ hspent).1 (Nat.lt_irrefl _)
  · refine (h.earned_claim hx').mono (fun n job hgot ↦ ?_) (fun _ _ hn ↦ hn) rfl
    exact (claimed_of_lt (h.got id n job hgot).1).trans hgot

/-! ## Outcomes -/

theorem Kept.succeed (h : s.Kept) (hr : r ∈ s.fleet.runs)
    (hreturned : s.outcome r.key = some .returned) (ctx : Ctx) :
    Kept { s with fleet := s.fleet.call ⟨ctx, .markSucceeded r.job r.worker⟩ } := by
  refine h.call (fun w lease batch hop ↦ by cases hop) (fun _ ↦ Or.inl rfl) fun id x' hx' ↦ ?_
  rcases Jobs.row_updateHeld id [r.job] r.worker (t := s.fleet.jobs) (.succeed ctx.now) with
    hsame | ⟨x, ⟨hid, -⟩, hx, hnew⟩
  · exact (h.earned id x' (hsame.symm.trans hx')).mono (fun _ _ hn ↦ hn) (fun _ _ hn ↦ hn) rfl
  · obtain rfl := Option.some.inj (hnew.symm.trans hx')
    obtain rfl := List.mem_singleton.mp hid
    obtain ⟨job, hjob⟩ := h.known r hr
    refine ⟨fun _ ↦ ⟨r.claim, hjob.trans ?_, hreturned⟩, nofun, (h.earned _ x hx).attempts⟩
    exact congrArg some ((h.got r.job r.claim job hjob).2.2 x hx)

-- What `mark_failed` returns is whether its guard has matched.
theorem markFailed_result {u v : Jobs} {ctx : Ctx} {job : Nat} {w : WorkerId} {error : PyStr}
    {permanent b : Bool} {maxAttempts : Option Int} {draw : Int}
    (h : u.markFailed ctx job w error permanent maxAttempts draw = some (v, b)) :
    b = (u.row job).any (·.heldBy w) := by
  have hany : (u.row job).any (·.heldBy w) = ((u.row job).filter (·.heldBy w)).isSome := by
    cases u.row job with
    | none => rfl
    | some x =>
        rw [Option.any_some, Option.filter_some]
        split
        · exact ‹_›
        · exact Bool.eq_false_iff.mpr ‹_›
  rw [hany]
  unfold Jobs.markFailed at h
  cases hheld : (u.row job).filter (·.heldBy w) with
  | none =>
      rw [hheld] at h
      exact (congrArg Prod.snd (Option.some.inj h)).symm
  | some x =>
      rw [hheld] at h
      simp only [Option.map_some] at h
      split at h
      · cases h
      split at h
      · split at h
        · exact (congrArg Prod.snd (Option.some.inj h)).symm
        · cases h
      · split at h
        · cases h
        · split at h
          · exact (congrArg Prod.snd (Option.some.inj h)).symm
          · cases h

-- A recorded failure is one attempt, and buries the job for good reason.
theorem Earned.failed (h : s.Earned r.job x) {now : Int} {error : PyStr} {permanent : Bool}
    {maxAttempts : Option Int} {draw : Int}
    (hfailed : x.failed now error permanent maxAttempts draw = some x')
    (hpermanent : permanent = true → s.outcome r.key = some (.raised true))
    (hfailures : t.failures r.job = s.failures r.job ++ [r.claim])
    (houtcome : t.outcome = s.outcome) : t.Earned r.job x' := by
  have hlength : (t.failures r.job).length = x.attempts + 1 := by
    rw [hfailures, List.length_append, h.attempts]
    rfl
  rcases Job.failed_cases hfailed with ⟨rfl, hwhy⟩ | ⟨delay, -, rfl, -⟩
  · refine ⟨nofun, fun _ ↦ ?_, hlength.symm⟩
    rcases hwhy with hpermanent' | hlimit
    · refine Or.inl ⟨r.claim, ?_, ?_⟩
      · rw [hfailures]
        exact List.mem_append_right _ (List.mem_singleton_self _)
      · rw [houtcome]
        exact hpermanent hpermanent'
    · refine Or.inr (Or.inl ?_)
      rw [hlength]
      exact hlimit
  · exact ⟨nofun, nofun, hlength.symm⟩

-- A `mark_failed` that changes no row leaves nothing behind but the run's phase.
theorem Kept.failUnrecorded (h : s.Kept) {c : Call} (hr : r ∈ s.fleet.runs)
    (hphase : r.phase ≠ .settled) (hc : ∀ w lease batch, c.op ≠ .claimJobs w lease batch)
    (hrows : ∀ id, (c.run s.fleet.jobs).row id = s.fleet.jobs.row id) :
    Kept { s with fleet := (s.fleet.call c).setPhase r .settled } := by
  have hcall : Kept { s with fleet := s.fleet.call c } := by
    refine h.call hc (fun _ ↦ Or.inl rfl) fun id x' hx' ↦ ?_
    exact (h.earned id x' ((hrows id).symm.trans hx')).mono (fun _ _ hn ↦ hn) (fun _ _ hn ↦ hn) rfl
  exact hcall.setPhase hr hphase .settled

theorem Kept.failRecorded (h : s.Kept) {c : Call} {error : PyStr} {permanent : Bool}
    {maxAttempts : Option Int} {draw : Int} (hr : r ∈ s.fleet.runs) (hphase : r.phase ≠ .settled)
    (hc : ∀ w lease batch, c.op ≠ .claimJobs w lease batch) (hx : s.fleet.jobs.row r.job = some x)
    (hfailed : x.failed c.now error permanent maxAttempts draw = some x')
    (hpermanent : permanent = true → s.outcome r.key = some (.raised true))
    (hrows : ∀ id, (c.run s.fleet.jobs).row id =
      if id = r.job then some x' else s.fleet.jobs.row id) :
    Kept { s with
      fleet := (s.fleet.call c).setPhase r .settled
      failures := Function.update s.failures r.job (s.failures r.job ++ [r.claim]) } := by
  have hnew : r.claim ∉ s.failures r.job := fun hin ↦ hphase (h.spent r hr hin)
  have hlt := h.recorded.claim_lt hr
  refine ⟨(h.recorded.call hc).setPhase r _, Fleet.Keyed.updateRows (s := s.fleet) h.keyed rfl,
    fun id n job hgot ↦ h.got_call c hgot, fun y hy ↦ ?_, fun id n hn ↦ ?_, fun id ↦ ?_,
    fun y hy hspent ↦ ?_, fun id y hy ↦ ?_⟩
  · obtain ⟨z, hz, ⟨-, rfl⟩ | ⟨-, rfl⟩⟩ := Fleet.mem_setPhase hy
    · exact h.known z hz
    · exact h.known y hz
  · dsimp only at hn
    by_cases hid : id = r.job
    · subst hid
      rw [Function.update_self] at hn
      rcases List.mem_append.mp hn with hold | hself
      · exact ⟨(h.numbered _ n hold).1, (c.run_of_lt (lt_nextId hx)).1⟩
      · obtain rfl := List.mem_singleton.mp hself
        exact ⟨hlt, (c.run_of_lt (lt_nextId hx)).1⟩
    · rw [Function.update_of_ne hid] at hn
      exact ⟨(h.numbered id n hn).1, (c.run_of_lt (h.numbered id n hn).2).1⟩
  · dsimp only
    by_cases hid : id = r.job
    · subst hid
      rw [Function.update_self]
      exact (h.once _).append (List.nodup_singleton _)
        (List.disjoint_singleton.mpr hnew)
    · rw [Function.update_of_ne hid]
      exact h.once id
  · obtain ⟨z, hz, ⟨-, rfl⟩ | ⟨hkey, rfl⟩⟩ := Fleet.mem_setPhase hy
    · rfl
    · -- another run, whose failure was recorded before
      have hspent : y.claim ∈ Function.update s.failures r.job (s.failures r.job ++ [r.claim])
        y.job := hspent
      refine h.spent y hz ?_
      by_cases hjob : y.job = r.job
      · rw [hjob, Function.update_self] at hspent
        rcases List.mem_append.mp hspent with hold | hself
        · exact hjob ▸ hold
        · exact absurd (Prod.ext hjob (List.mem_singleton.mp hself)) hkey
      · rwa [Function.update_of_ne hjob] at hspent
  · have hy := (hrows id).symm.trans hy
    by_cases hid : id = r.job
    · subst hid
      rw [if_pos rfl] at hy
      obtain rfl := Option.some.inj hy
      exact (h.earned _ x hx).failed hfailed hpermanent (Function.update_self ..) rfl
    · rw [if_neg hid] at hy
      exact (h.earned id y hy).mono (fun _ _ hn ↦ hn) (fun _ _ hn ↦ hn)
        (Function.update_of_ne hid ..)

theorem Kept.fail (h : s.Kept) {ctx : Ctx} {error : PyStr} {permanent : Bool}
    {maxAttempts : Option Int} {draw : Int} (hr : r ∈ s.fleet.runs)
    (hphase : Fleet.isFailing r.phase)
    (hpermanent : permanent = true → s.outcome r.key = some (.raised true)) :
    Kept (s.next (.fleet (.fail r ctx error permanent maxAttempts draw))) := by
  have hunsettled : r.phase ≠ .settled := by
    intro hsettled
    rw [hsettled] at hphase
    cases hphase
  let c : Call := ⟨ctx, .markFailed r.job r.worker error permanent maxAttempts draw⟩
  have hc : ∀ w lease batch, c.op ≠ .claimJobs w lease batch := fun _ _ _ hop ↦ by cases hop
  have hnext : s.next (.fleet (.fail r ctx error permanent maxAttempts draw)) =
      { s with
        fleet := (s.fleet.call c).setPhase r .settled
        failures := s.failed r (s.fleet.jobs.markFailed ctx r.job r.worker error permanent
          maxAttempts draw) } := rfl
  have hrun : c.run s.fleet.jobs = ((s.fleet.jobs.markFailed ctx r.job r.worker error permanent
      maxAttempts draw).map (·.1)).getD s.fleet.jobs := rfl
  rw [hnext]
  by_cases hheld : ∃ x, s.fleet.jobs.row r.job = some x ∧ x.heldBy r.worker
  · obtain ⟨x, hx, hw⟩ := hheld
    have hrows := Jobs.markFailed_of_held ctx error permanent maxAttempts draw hx hw
    cases hresult : s.fleet.jobs.markFailed ctx r.job r.worker error permanent maxAttempts draw with
    | none =>
        rw [hresult] at hrun
        exact h.failUnrecorded hr hunsettled hc fun id ↦ by rw [hrun]; rfl
    | some result =>
        obtain ⟨u, b⟩ := result
        obtain rfl : b = true := by
          rw [markFailed_result hresult, hx, Option.any_some, hw]
        rw [hresult] at hrows hrun
        obtain ⟨x', hfailed, -⟩ := Option.map_eq_some_iff.mp (hrows r.job).symm
        refine h.failRecorded hr hunsettled hc hx hfailed hpermanent fun id ↦ ?_
        have hrow := hrows id
        rw [hfailed, Option.map_some, Option.map_some] at hrow
        rw [hrun]
        exact Option.some.inj hrow
  · have hrows := Jobs.markFailed_of_not_held ctx error permanent maxAttempts draw
      fun x hx hw ↦ hheld ⟨x, hx, hw⟩
    cases hresult : s.fleet.jobs.markFailed ctx r.job r.worker error permanent maxAttempts draw with
    | none =>
        rw [hresult] at hrun
        exact h.failUnrecorded hr hunsettled hc fun id ↦ by rw [hrun]; rfl
    | some result =>
        obtain ⟨u, b⟩ := result
        obtain rfl : b = false := by
          rw [markFailed_result hresult, Option.any_eq_false]
          exact fun x hx ↦ Bool.eq_false_iff.mpr fun hw ↦ hheld ⟨x, hx, hw⟩
        rw [hresult] at hrows hrun
        refine h.failUnrecorded hr hunsettled hc fun id ↦ ?_
        rw [hrun]
        exact Option.some.inj (hrows id)

/-! ## Every step -/

theorem Kept.ends (h : s.Kept) (hnone : s.outcome r.key = none) (outcome : Outcome) :
    Kept { s with outcome := Function.update s.outcome r.key (some outcome) } := by
  refine ⟨h.recorded, h.keyed, h.got, h.known, h.numbered, h.once, h.spent, fun id x hx ↦ ?_⟩
  refine (h.earned id x hx).mono (fun _ _ hn ↦ hn) (fun n o ho ↦ ?_) rfl
  have hne : (id, n) ≠ r.key := by
    rintro heq
    rw [heq, hnone] at ho
    cases ho
  exact (Function.update_of_ne hne ..).trans ho

theorem unsettled_of_executing {p : Phase} (h : Fleet.isExecuting p) : p ≠ .settled := by
  rintro rfl
  cases h

theorem unsettled_of_raise (h : r.phase = .taken ∨ Fleet.isExecuting r.phase) :
    r.phase ≠ .settled := by
  rcases h with htaken | hexecuting
  · rw [htaken]
    decide
  · exact unsettled_of_executing hexecuting

theorem Kept.next (h : s.Kept) {a : LedgerStep} (ha : s.enabled a) : (s.next a).Kept := by
  cases a with
  | returns r => exact h.ends ha.2 _
  | raises r permanent =>
      obtain ⟨⟨⟨hr, hphase⟩, -⟩, hnone⟩ := ha
      exact (h.ends hnone _).setPhase hr (unsettled_of_raise hphase) _
  | fleet a =>
      obtain ⟨ha, hfollows⟩ := ha
      cases a with
      | call c => exact h.quiet ha
      | claim ctx w lease batch seen => exact h.claim ctx w lease batch seen
      | hold w => exact h.hold w
      | take r | drain r => exact h.setPhase ha.1 (by rw [ha.2]; decide) _
      | start r monotonic maxExecution =>
          exact (h.setPhase ha.1 (by rw [ha.2]; decide) _).setDeadlines _ _
      | raise r => exact h.setPhase ha.1 (unsettled_of_raise ha.2) _
      | succeed r ctx seen =>
          exact (h.succeed ha.1 hfollows ctx).setPhase ha.1 (unsettled_of_executing ha.2) _
      | fail r ctx error permanent maxAttempts draw =>
          refine h.fail ha.1 ha.2 fun htrue ↦ ?_
          have hdecide : permanent = decide (s.outcome r.key = some (.raised true)) := hfollows
          exact of_decide_eq_true (hdecide.symm.trans htrue)
      | abandon r =>
          refine h.setPhase ha.1 (fun hsettled ↦ ?_) _
          have hfailing := ha.2
          rw [hsettled] at hfailing
          cases hfailing
      | finish r => exact (h.without _).setDeadlines _ _
      | letGo w => exact (h.without _).setDeadlines _ _
      | crash w => exact (h.without _).setDeadlines _ _

theorem kept_start : start.Kept where
  recorded := Fleet.recorded (.init rfl)
  keyed r hr := absurd hr List.not_mem_nil
  got id n job hgot := by cases hgot
  known r hr := absurd hr List.not_mem_nil
  numbered id n hn := absurd hn List.not_mem_nil
  once _ := List.nodup_nil
  spent r hr := absurd hr List.not_mem_nil
  earned id x hx := by cases hx

end Ledger

def ledger : System Ledger LedgerStep := .guarded (· = Ledger.start) Ledger.enabled Ledger.next

theorem Ledger.kept {s : Ledger} (h : ledger.Reachable s) : s.Kept := by
  apply h.invariant
  · rintro s rfl
    exact kept_start
  · rintro s a t hs ⟨ha, rfl⟩
    exact hs.next ha

/-- In every run of any number of workers, sweeps and retries: a job has succeeded only if a run of
its task on its arguments has returned; it is dead only if, since it was created or last retried,
the failure of a run that raised a `PermanentError` was recorded, or as many failures as it may
have attempts, or its recoveries are used up; its attempts are the runs whose failure was recorded,
each of them once; and a process that crashes leaves it as it is. -/
theorem terminal_earned {s : Ledger} {id : Nat} {x : Job} (h : ledger.Reachable s)
    (hx : s.fleet.jobs.row id = some x) :
    (x.status = .succeeded → ∃ n, s.got (id, n) = some ⟨id, x.task, x.args⟩ ∧
      s.outcome (id, n) = some .returned) ∧
    (x.status = .dead → (∃ n ∈ s.failures id, s.outcome (id, n) = some (.raised true)) ∨
      x.maxAttempts ≤ (s.failures id).length ∨ x.maxRecoveries ≤ x.recoveries) ∧
    x.attempts = (s.failures id).length ∧ (s.failures id).Nodup ∧
    ∀ w, (s.next (.fleet (.crash w))).fleet.jobs.row id = some x := by
  have hkept := Ledger.kept h
  have hearned := hkept.earned id x hx
  exact ⟨hearned.succeeded, hearned.dead, hearned.attempts, hkept.once id, fun _ ↦ hx⟩

/-- The task returns, its completion is committed and the reply lost, and `mark_failed` comes too
late. -/
def completedUnseen : List LedgerStep :=
  (.call ⟨.alone 0, .enqueue "t" "" none⟩ :: claimAndStart 0 0).map .fleet ++
    [.returns (executingRun 0), .fleet (.succeed (executingRun 0) (.alone 1000000) false),
      .fleet (.fail ⟨"w", 1, 0, .failing (some 300000000)⟩ (.alone 2000000) [] false none 0)]

theorem terminal_earned_unseen : ∃ (s : Ledger) (x : Job), s.fleet.jobs.row 1 = some x ∧
    x.status = .succeeded ∧ x.attempts = 0 ∧ ∃ n, s.outcome (1, n) = some .returned := by
  have hrun := (System.run_of_play completedUnseen rfl).reachable (M := ledger) (.init rfl)
  have hmain := @terminal_earned _ 1 _ hrun rfl
  obtain ⟨n, -, hn⟩ := hmain.1 rfl
  exact ⟨_, _, rfl, rfl, hmain.2.2.1, n, hn⟩

end DurableQueue
