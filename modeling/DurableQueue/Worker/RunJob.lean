import DurableQueue.Jobs.Lifecycle

/-!
# Running one job

`run_job` of `worker.py` as one function from the database to the database, for every way in which
a task may end, and when it counts a failure.  The heartbeat's part in it is left to `Heartbeat`.
-/

open Reasoning

namespace DurableQueue

/-! ## Exceptions and their texts -/

/-- An exception by the classes that it is an instance of, and by its text.  `str` may raise, too:
an `Exception`, or something else. -/
structure PyException where
  ordinary : Bool     -- `Exception`
  leaseLost : Bool    -- `_LeaseLost`
  permanent : Bool    -- `PermanentError`
  rollback : Bool     -- `psycopg.Rollback`, for the block it is raised in
  str : Except Bool PyStr

inductive Ending where
  | returned
  | raised (exc : PyException)

/-- How `run_job` ends; what it raises is an `Exception` or not. -/
inductive Exit where
  | returned
  | raised (ordinary : Bool)
  deriving DecidableEq

def toPyStr (s : String) : PyStr := s.toList.map Char.toNat

/-- `n` in hexadecimal, with `width` digits. -/
def hex : Nat → Nat → PyStr
  | 0, _ => []
  | width + 1, n => hex width (n / 16) ++ [if n % 16 < 10 then 48 + n % 16 else 87 + n % 16]

/-- One character of `repr(s)`, between quotes of the given kind. -/
def reprChar (isprintable : Nat → Bool) (quote c : Nat) : PyStr :=
  if c = quote ∨ c = 92 then [92, c]
  else if c = 9 then [92, 116]
  else if c = 10 then [92, 110]
  else if c = 13 then [92, 114]
  else if c < 32 ∨ c = 127 then 92 :: 120 :: hex 2 c
  else if c < 127 ∨ isprintable c then [c]
  else if c < 256 then 92 :: 120 :: hex 2 c
  else if c < 65536 then 92 :: 117 :: hex 4 c
  else 92 :: 85 :: hex 8 c

/-- `repr(s)`: in single quotes, unless it has only those. -/
def pyRepr (isprintable : Nat → Bool) (s : PyStr) : PyStr :=
  let quote := if 39 ∈ s ∧ 34 ∉ s then 34 else 39
  quote :: s.flatMap (reprChar isprintable quote) ++ [quote]

/-- `KeyError(f"no task registered as {name!r}")`, whose text is the `repr` of its argument. -/
def notRegistered (isprintable : Nat → Bool) (name : String) : PyException where
  ordinary := true
  leaseLost := false
  permanent := false
  rollback := false
  str := .ok (pyRepr isprintable
    (toPyStr "no task registered as " ++ pyRepr isprintable (toPyStr name)))

/-! ## `run_job` -/

/-- The jobs table, and whatever else tasks write to. -/
structure Database (δ : Type*) where
  jobs : Jobs
  data : δ

/-- `fn` on the database: in its transaction if the task takes `conn`, else by itself, with all that
happens until it ends. -/
structure RegisteredTask (δ : Type*) where
  fn : Json → Database δ → Database δ × Ending
  wantsConnection : Bool
  maxAttempts : Option Int

structure ClaimedJob where
  id : Nat
  task : String
  args : Json

/-- What a run meets: the characters that Python prints as they are, what others have committed by
the time its transaction is rolled back, and what its two outcome statements meet. -/
structure Surroundings (δ : Type*) where
  isprintable : Nat → Bool
  meanwhile : Database δ → Database δ
  done : Ctx
  failed : Ctx
  draw : Int

variable {δ : Type*}

/-- The `except` clauses. -/
def handleException (e : Surroundings δ) (db : Database δ) (job : ClaimedJob) (workerId : WorkerId)
    (exc : PyException) (maxAttempts : Option Int) : Database δ × Exit :=
  if !exc.ordinary then (db, .raised false)
  else if exc.leaseLost then (db, .returned)
  else
    match exc.str with
    | .error ordinary => (db, .raised ordinary)
    | .ok error =>
        match db.jobs.markFailed e.failed job.id workerId error exc.permanent maxAttempts
            e.draw with
        | none => (db, .raised true)
        | some (jobs, _) => ({ db with jobs := jobs }, .returned)

def runJob (registry : String → Option (RegisteredTask δ)) (e : Surroundings δ) (db : Database δ)
    (job : ClaimedJob) (workerId : WorkerId) : Database δ × Exit :=
  match registry job.task with
  | none =>
      handleException e (e.meanwhile db) job workerId (notRegistered e.isprintable job.task) none
  | some registered =>
      let (inside, ending) := registered.fn job.args db
      let completed : Database δ :=
        { inside with jobs := (inside.jobs.markSucceeded e.done job.id workerId).1 }
      match ending with
      | .returned =>
          -- `_LeaseLost` rolls the transaction back
          if registered.wantsConnection &&
              !(inside.jobs.markSucceeded e.done job.id workerId).2 then
            (e.meanwhile db, .returned)
          else (completed, .returned)
      | .raised exc =>
          if registered.wantsConnection then
            -- `transaction()` keeps a `Rollback` to itself
            if exc.rollback then (e.meanwhile db, .returned)
            else handleException e (e.meanwhile db) job workerId exc registered.maxAttempts
          else handleException e inside job workerId exc registered.maxAttempts

/-- The exception that ends the `try`, the task's own limit, and the database as the `except`
clauses find it. -/
def failure (registry : String → Option (RegisteredTask δ)) (e : Surroundings δ) (db : Database δ)
    (job : ClaimedJob) : Option (PyException × Option Int × Database δ) :=
  match registry job.task with
  | none => some (notRegistered e.isprintable job.task, none, e.meanwhile db)
  | some registered =>
      match (registered.fn job.args db).2 with
      | .returned => none
      | .raised exc => some (exc, registered.maxAttempts,
          if registered.wantsConnection then e.meanwhile db else (registered.fn job.args db).1)

/-- A failure of the job with row `r` in `before` has been counted. -/
structure Recorded (now : Int) (before after : Database δ) (r : Job) (permanent : Bool)
    (limit : Int) : Prop where
  row : ∃ r', after.jobs.row r.id = some r' ∧ r'.attempts = r.attempts + 1 ∧
    r'.lockedBy = none ∧ r'.lockedUntil = none ∧
      if permanent ∨ limit ≤ r'.attempts then r'.status = .dead ∧ r'.finishedAt = some now
      else r'.status = .pending ∧ now ≤ r'.runAt ∧ r'.runAt ≤ now + seconds 300
  data : after.data = before.data

/-- The task of `job` is transactional. -/
def InTransaction (registry : String → Option (RegisteredTask δ)) (job : ClaimedJob) : Prop :=
  ∃ registered, registry job.task = some registered ∧ registered.wantsConnection = true

/-- What an exception has to meet to be counted. -/
structure Countable (registry : String → Option (RegisteredTask δ)) (job : ClaimedJob)
    (exc : PyException) (maxAttempts : Option Int) (r : Job) : Prop where
  ordinary : exc.ordinary = true
  notLeaseLost : exc.leaseLost = false
  notRollback : InTransaction registry job → exc.rollback = false
  text : ∃ error, exc.str = .ok error ∧ Jobs.recordable error = true
  column : fitsInt (r.attempts + 1) = true ∧ maxAttempts.all fitsInt = true
  backoff : exc.permanent = true ∨ maxAttempts.getD r.maxAttempts ≤ r.attempts + 1 ∨
    r.attempts + 1 < 1024

/-! ## When `mark_failed` raises -/

namespace Jobs

theorem computeBackoff_isSome_iff (attempts : Nat) (draw : Int) :
    (∃ delay, computeBackoff attempts draw = some delay) ↔ attempts < 1024 := by
  unfold computeBackoff
  by_cases h : 1024 ≤ attempts
  · rw [if_pos h]
    constructor
    · rintro ⟨_, hdelay⟩
      cases hdelay
    · omega
  · rw [if_neg h]
    exact ⟨fun _ ↦ Nat.lt_of_not_le h, fun _ ↦ ⟨_, rfl⟩⟩

theorem computeBackoff_bounds {attempts : Nat} {draw delay : Int}
    (h : computeBackoff attempts draw = some delay) : 0 ≤ delay ∧ delay ≤ seconds 300 := by
  unfold computeBackoff at h
  split at h
  · cases h
  · obtain rfl := Option.some.inj h
    unfold seconds
    omega

end Jobs

-- The second UPDATE binds the text, whichever of the two it is.
theorem Job.failed_eq (r : Job) (now : Int) (error : PyStr) (permanent : Bool)
    (maxAttempts : Option Int) (draw : Int) :
    r.failed now error permanent maxAttempts draw =
      if !(fitsInt (r.attempts + 1) && maxAttempts.all fitsInt) then none
      else if permanent || decide (maxAttempts.getD r.maxAttempts ≤ r.attempts + 1) then
        if Jobs.recordable error then
          some (SetClause.bury now error (SetClause.countFailure maxAttempts r))
        else none
      else (Jobs.computeBackoff (r.attempts + 1) draw).elim none fun delay ↦
        if Jobs.recordable error then
          some (SetClause.reschedule (now + delay) error (SetClause.countFailure maxAttempts r))
        else none := by
  have hcount : (SetClause.countFailure maxAttempts r).attempts = r.attempts + 1 := rfl
  unfold Job.failed
  simp only [hcount]
  cases Jobs.computeBackoff (r.attempts + 1) draw <;> rfl

theorem Job.failed_isSome_iff (r : Job) (now : Int) (error : PyStr) (permanent : Bool)
    (maxAttempts : Option Int) (draw : Int) :
    (∃ r', r.failed now error permanent maxAttempts draw = some r') ↔
      Jobs.recordable error = true ∧
      (fitsInt (r.attempts + 1) = true ∧ maxAttempts.all fitsInt = true) ∧
      (permanent = true ∨ maxAttempts.getD r.maxAttempts ≤ r.attempts + 1 ∨
        r.attempts + 1 < 1024) := by
  have hcolumn : (!(fitsInt (r.attempts + 1) && maxAttempts.all fitsInt)) = true ↔
      ¬ (fitsInt (r.attempts + 1) = true ∧ maxAttempts.all fitsInt = true) := by
    rw [Bool.not_eq_true', Bool.eq_false_iff, Ne, Bool.and_eq_true]
  have hlimit : (permanent || decide (maxAttempts.getD r.maxAttempts ≤ r.attempts + 1)) = true ↔
      permanent = true ∨ maxAttempts.getD r.maxAttempts ≤ r.attempts + 1 := by
    rw [Bool.or_eq_true, decide_eq_true_eq]
  have hnone : ¬ ∃ r', (none : Option Job) = some r' := by
    rintro ⟨r', h⟩
    cases h
  rw [Job.failed_eq, ← or_assoc, ← hlimit, ← Jobs.computeBackoff_isSome_iff _ draw]
  generalize Jobs.computeBackoff (r.attempts + 1) draw = backoff
  by_cases hfits : fitsInt (r.attempts + 1) = true ∧ maxAttempts.all fitsInt = true
  · rw [if_neg (mt hcolumn.mp (not_not.mpr hfits))]
    by_cases hbury : (permanent || decide (maxAttempts.getD r.maxAttempts ≤ r.attempts + 1)) = true
    · rw [if_pos hbury]
      by_cases hrec : Jobs.recordable error = true
      · rw [if_pos hrec]
        exact ⟨fun _ ↦ ⟨hrec, hfits, Or.inl hbury⟩, fun _ ↦ ⟨_, rfl⟩⟩
      · rw [if_neg hrec]
        exact iff_of_false hnone fun h ↦ hrec h.1
    · rw [if_neg hbury]
      cases backoff with
      | none =>
          refine iff_of_false hnone fun h ↦ ?_
          rcases h.2.2 with hburied | ⟨delay, hfalse⟩
          · exact hbury hburied
          · cases hfalse
      | some delay =>
          rw [Option.elim_some]
          by_cases hrec : Jobs.recordable error = true
          · rw [if_pos hrec]
            exact ⟨fun _ ↦ ⟨hrec, hfits, Or.inr ⟨_, rfl⟩⟩, fun _ ↦ ⟨_, rfl⟩⟩
          · rw [if_neg hrec]
            exact iff_of_false hnone fun h ↦ hrec h.1
  · rw [if_pos (hcolumn.mpr hfits)]
    exact iff_of_false hnone fun h ↦ hfits h.2.1

-- What a failure leaves in the row, whichever of the two statements writes it.
theorem Job.recorded_of_failed {r r' : Job} {now : Int} {error : PyStr} {permanent : Bool}
    {maxAttempts : Option Int} {draw : Int}
    (h : r.failed now error permanent maxAttempts draw = some r') :
    r'.attempts = r.attempts + 1 ∧ r'.lockedBy = none ∧ r'.lockedUntil = none ∧
      if permanent ∨ maxAttempts.getD r.maxAttempts ≤ r'.attempts then
        r'.status = .dead ∧ r'.finishedAt = some now
      else r'.status = .pending ∧ now ≤ r'.runAt ∧ r'.runAt ≤ now + seconds 300 := by
  have hcount : (SetClause.countFailure maxAttempts r).attempts = r.attempts + 1 := rfl
  rcases Job.failed_cases h with ⟨rfl, hlimit⟩ | ⟨delay, hdelay, rfl, hmore, hless⟩
  · refine ⟨rfl, rfl, rfl, ?_⟩
    rw [if_pos]
    · exact ⟨rfl, rfl⟩
    · exact hlimit
  · obtain ⟨hnonneg, hle⟩ := Jobs.computeBackoff_bounds hdelay
    refine ⟨rfl, rfl, rfl, ?_⟩
    rw [if_neg]
    · refine ⟨rfl, ?_, ?_⟩
      · change now ≤ now + delay
        omega
      · change now + delay ≤ now + seconds 300
        omega
    · rw [hmore]
      rintro (hfalse | hreached)
      · cases hfalse
      · change maxAttempts.getD r.maxAttempts ≤ ((r.attempts + 1 : Nat) : Int) at hreached
        push_cast at hreached
        omega

/-! ## When a failure is counted -/

section Record

variable {registry : String → Option (RegisteredTask δ)} {e : Surroundings δ}
  {db before after : Database δ} {job : ClaimedJob} {workerId : WorkerId} {exc : PyException}
  {maxAttempts : Option Int} {r : Job}

theorem markFailed_cases {t : Jobs} (ctx : Ctx) (error : PyStr) (permanent : Bool)
    (maxAttempts : Option Int) (draw : Int) (hr : t.row job.id = some r)
    (hheld : r.heldBy workerId) :
    (t.markFailed ctx job.id workerId error permanent maxAttempts draw = none ∧
        r.failed ctx.now error permanent maxAttempts draw = none) ∨
      ∃ u b r', t.markFailed ctx job.id workerId error permanent maxAttempts draw = some (u, b) ∧
        r.failed ctx.now error permanent maxAttempts draw = some r' ∧ u.row job.id = some r' := by
  have h := Jobs.markFailed_of_held ctx error permanent maxAttempts draw hr hheld job.id
  simp only [if_true] at h
  cases hfailed : r.failed ctx.now error permanent maxAttempts draw with
  | none =>
      rw [hfailed, Option.map_none, Option.map_eq_none_iff] at h
      exact Or.inl ⟨h, rfl⟩
  | some r' =>
      rw [hfailed, Option.map_some] at h
      obtain ⟨⟨u, b⟩, hu, hrow⟩ := Option.map_eq_some_iff.mp h
      exact Or.inr ⟨u, b, r', hu, rfl, hrow⟩

-- A row that is as it was has not been counted.
theorem not_recorded_self {now : Int} {permanent : Bool} {limit : Int}
    (hr : before.jobs.row r.id = some r) : ¬ Recorded now before before r permanent limit := by
  rintro ⟨⟨r', hr', hcount, -⟩, -⟩
  rw [Option.some.inj (hr.symm.trans hr')] at hcount
  omega

theorem handleException_records_iff (hr : before.jobs.row job.id = some r)
    (hheld : r.heldBy workerId) :
    ((handleException e before job workerId exc maxAttempts).2 = .returned ∧
      Recorded e.failed.now before (handleException e before job workerId exc maxAttempts).1 r
        exc.permanent (maxAttempts.getD r.maxAttempts)) ↔
      exc.ordinary = true ∧ exc.leaseLost = false ∧
      (∃ error, exc.str = .ok error ∧ Jobs.recordable error = true) ∧
      (fitsInt (r.attempts + 1) = true ∧ maxAttempts.all fitsInt = true) ∧
      (exc.permanent = true ∨ maxAttempts.getD r.maxAttempts ≤ r.attempts + 1 ∨
        r.attempts + 1 < 1024) := by
  have hid := Jobs.row_id hr
  have hself : ¬ Recorded e.failed.now before before r exc.permanent
      (maxAttempts.getD r.maxAttempts) := not_recorded_self (hid ▸ hr)
  unfold handleException
  cases hordinary : exc.ordinary with
  | false =>
      constructor
      · rintro ⟨hreturned, -⟩
        cases hreturned
      · rintro ⟨hfalse, -⟩
        cases hfalse
  | true =>
      cases hlost : exc.leaseLost with
      | true =>
          constructor
          · rintro ⟨-, hrecorded⟩
            exact absurd hrecorded hself
          · rintro ⟨-, hfalse, -⟩
            cases hfalse
      | false =>
          cases hstr : exc.str with
          | error ordinary =>
              constructor
              · rintro ⟨hreturned, -⟩
                cases hreturned
              · rintro ⟨-, -, ⟨error, herror, -⟩, -⟩
                cases herror
          | ok error =>
              have hsome := Job.failed_isSome_iff r e.failed.now error exc.permanent maxAttempts
                e.draw
              rcases markFailed_cases e.failed error exc.permanent maxAttempts e.draw hr hheld
                with ⟨hraised, hnone⟩ | ⟨u, b, r', hu, hfailed, hrow⟩
              · simp only [hraised]
                constructor
                · rintro ⟨hreturned, -⟩
                  cases hreturned
                · rintro ⟨-, -, ⟨error', herror, hrec⟩, hrest⟩
                  cases herror
                  obtain ⟨r', hr'⟩ := hsome.mpr ⟨hrec, hrest⟩
                  rw [hnone] at hr'
                  cases hr'
              · simp only [hu]
                obtain ⟨hrec, hrest⟩ := hsome.mp ⟨r', hfailed⟩
                constructor
                · intro _
                  exact ⟨trivial, trivial, ⟨error, rfl, hrec⟩, hrest⟩
                · intro _
                  exact ⟨rfl, ⟨r', by rw [hid]; exact hrow, Job.recorded_of_failed hfailed⟩, rfl⟩

/-- A `Rollback` leaves its own block without a trace; anything else that ends the `try` reaches the
`except` clauses. -/
theorem runJob_of_failure (h : failure registry e db job = some (exc, maxAttempts, before))
    (workerId : WorkerId) :
    (runJob registry e db job workerId = handleException e before job workerId exc maxAttempts ∧
        (InTransaction registry job → exc.rollback = false)) ∨
      runJob registry e db job workerId = (before, .returned) ∧
        InTransaction registry job ∧ exc.rollback = true := by
  unfold failure at h
  unfold runJob
  cases hregistered : registry job.task with
  | none =>
      rw [hregistered] at h
      cases h
      refine Or.inl ⟨rfl, ?_⟩
      rintro ⟨registered, hsome, -⟩
      rw [hregistered] at hsome
      cases hsome
  | some registered =>
      rw [hregistered] at h
      simp only at h
      cases hending : (registered.fn job.args db).2 with
      | returned =>
          rw [hending] at h
          cases h
      | raised exc' =>
          rw [hending] at h
          simp only [Option.some.injEq, Prod.mk.injEq] at h
          obtain ⟨rfl, rfl, hbefore⟩ := h
          simp only [hending]
          cases hconn : registered.wantsConnection with
          | false =>
              rw [hconn, if_neg Bool.false_ne_true] at hbefore
              refine Or.inl ⟨by rw [if_neg Bool.false_ne_true, hbefore], ?_⟩
              rintro ⟨registered', hsome, htrue⟩
              obtain rfl := Option.some.inj (hregistered.symm.trans hsome)
              rw [hconn] at htrue
              cases htrue
          | true =>
              rw [hconn, if_pos rfl] at hbefore
              rw [if_pos rfl, hbefore]
              cases hrollback : exc'.rollback with
              | false => exact Or.inl ⟨if_neg Bool.false_ne_true, fun _ ↦ rfl⟩
              | true => exact Or.inr ⟨if_pos rfl, ⟨registered, hregistered, hconn⟩, rfl⟩

/-- A failing run of a job that its worker holds is counted if and only if its exception is one
that can be. -/
theorem runJob_records_iff (hfailure : failure registry e db job = some (exc, maxAttempts, before))
    (hr : before.jobs.row job.id = some r) (hheld : r.heldBy workerId) :
    ((runJob registry e db job workerId).2 = .returned ∧
      Recorded e.failed.now before (runJob registry e db job workerId).1 r exc.permanent
        (maxAttempts.getD r.maxAttempts)) ↔ Countable registry job exc maxAttempts r := by
  rcases runJob_of_failure hfailure workerId with ⟨hrun, hkept⟩ | ⟨hrun, htransaction, hrollback⟩
  · rw [hrun, handleException_records_iff hr hheld]
    constructor
    · rintro ⟨hordinary, hlost, htext, hcolumn, hbackoff⟩
      exact ⟨hordinary, hlost, hkept, htext, hcolumn, hbackoff⟩
    · intro h
      exact ⟨h.ordinary, h.notLeaseLost, h.text, h.column, h.backoff⟩
  · rw [hrun]
    constructor
    · rintro ⟨-, hrecorded⟩
      have hid := Jobs.row_id hr
      exact absurd hrecorded (not_recorded_self (hid ▸ hr))
    · intro h
      have hfalse := h.notRollback htransaction
      rw [hrollback] at hfalse
      cases hfalse

end Record

/-! ## Tasks that are not registered -/

/-- U+0000 and the surrogates do not count as printable. -/
def PrintableSendable (isprintable : Nat → Bool) : Prop :=
  ∀ c, isprintable c = true → c ≠ 0 ∧ ¬ (0xD800 ≤ c ∧ c ≤ 0xDFFF)

theorem recordable_iff {s : PyStr} :
    Jobs.recordable s = true ↔ ∀ c ∈ s, c ≠ 0 ∧ ¬ (0xD800 ≤ c ∧ c ≤ 0xDFFF) := by
  unfold Jobs.recordable
  simp only [List.all_eq_true, Bool.and_eq_true, Bool.not_eq_true', decide_eq_true_eq,
    Bool.and_eq_false_iff, decide_eq_false_iff_not, not_and_or]

theorem hex_small {width n c : Nat} (h : c ∈ hex width n) : 48 ≤ c ∧ c < 127 := by
  induction width generalizing n with
  | zero => exact absurd h List.not_mem_nil
  | succ width ih =>
      rw [hex] at h
      rcases List.mem_append.mp h with hinit | hlast
      · exact ih hinit
      · rw [List.mem_singleton.mp hlast]
        split <;> omega

-- Whatever is not printable is escaped in ASCII.
theorem reprChar_sendable {isprintable : Nat → Bool} (hprint : PrintableSendable isprintable)
    {quote c d : Nat} (hquote : quote = 34 ∨ quote = 39) (h : d ∈ reprChar isprintable quote c) :
    d ≠ 0 ∧ ¬ (0xD800 ≤ d ∧ d ≤ 0xDFFF) := by
  have hescape {kind width : Nat} (hkind : 32 ≤ kind ∧ kind < 127)
      (hd : d ∈ 92 :: kind :: hex width c) : d ≠ 0 ∧ ¬ (0xD800 ≤ d ∧ d ≤ 0xDFFF) := by
    rcases List.mem_cons.mp hd with rfl | hd
    · omega
    · rcases List.mem_cons.mp hd with rfl | hd
      · omega
      · have hsmall := hex_small hd
        omega
  unfold reprChar at h
  split_ifs at h with h₁ h₂ h₃ h₄ h₅ h₆
  · simp only [List.mem_cons, List.not_mem_nil, or_false] at h
    omega
  · simp only [List.mem_cons, List.not_mem_nil, or_false] at h
    omega
  · simp only [List.mem_cons, List.not_mem_nil, or_false] at h
    omega
  · simp only [List.mem_cons, List.not_mem_nil, or_false] at h
    omega
  · exact hescape (by decide) h
  · obtain rfl := List.mem_singleton.mp h
    rcases h₆ with hascii | hprintable
    · omega
    · exact hprint d hprintable
  · exact hescape (by decide) h
  · exact hescape (by decide) h
  · exact hescape (by decide) h

theorem recordable_pyRepr {isprintable : Nat → Bool} (hprint : PrintableSendable isprintable)
    (s : PyStr) : Jobs.recordable (pyRepr isprintable s) = true := by
  rw [recordable_iff]
  intro d hd
  have hquote : (if 39 ∈ s ∧ 34 ∉ s then 34 else 39) = 34 ∨
      (if 39 ∈ s ∧ 34 ∉ s then 34 else 39) = 39 := by
    split <;> simp
  unfold pyRepr at hd
  generalize (if 39 ∈ s ∧ 34 ∉ s then 34 else 39) = quote at hquote hd
  rcases List.mem_append.mp hd with hd | hd
  · rcases List.mem_cons.mp hd with rfl | hd
    · omega
    · obtain ⟨c, -, hc⟩ := List.mem_flatMap.mp hd
      exact reprChar_sendable hprint hquote hc
  · obtain rfl := List.mem_singleton.mp hd
    omega

/-- Whatever its name, a task that is not registered fails its job, within the bounds of the columns
and of the backoff. -/
theorem countable_notRegistered {registry : String → Option (RegisteredTask δ)}
    {isprintable : Nat → Bool} (hprint : PrintableSendable isprintable) {job : ClaimedJob}
    (hnone : registry job.task = none) {r : Job} (hcolumn : fitsInt (r.attempts + 1) = true)
    (hbackoff : r.maxAttempts ≤ r.attempts + 1 ∨ r.attempts + 1 < 1024) :
    Countable registry job (notRegistered isprintable job.task) none r where
  ordinary := rfl
  notLeaseLost := rfl
  notRollback := by
    rintro ⟨registered, hsome, -⟩
    rw [hnone] at hsome
    cases hsome
  text := ⟨_, rfl, recordable_pyRepr hprint _⟩
  column := ⟨hcolumn, rfl⟩
  backoff := Or.inr hbackoff

/-! ## Two runs -/

/-- A job that `w` has claimed. -/
def claimedJobs : Jobs :=
  (((Jobs.empty.enqueue "t" "{}" none 0).1).claimJobs (.alone 0) "w" 30 1).1

def claimedRow : Job :=
  SetClause.claim "w" (seconds 30) (Job.insert 1 "t" "{}" none 0)

/-- A plain task that raises a `ValueError` with the given text. -/
def failing (text : PyStr) : RegisteredTask Unit :=
  ⟨fun _ db ↦ (db, .raised ⟨true, false, false, false, .ok text⟩), false, none⟩

/-- A second later, with nobody else about. -/
def alone : Surroundings Unit :=
  ⟨fun _ ↦ false, id, .alone (seconds 1), .alone (seconds 1), seconds 2⟩

/-- A `ValueError('boom')` is counted. -/
theorem runJob_records_boom :
    Recorded (seconds 1) ⟨claimedJobs, ()⟩
      (runJob (fun _ ↦ some (failing (toPyStr "boom"))) alone ⟨claimedJobs, ()⟩ ⟨1, "t", "{}"⟩
        "w").1 claimedRow false 5 := by
  have hfailure : failure (fun _ ↦ some (failing (toPyStr "boom"))) alone ⟨claimedJobs, ()⟩
      ⟨1, "t", "{}"⟩ =
        some (⟨true, false, false, false, .ok (toPyStr "boom")⟩, none, ⟨claimedJobs, ()⟩) := rfl
  have hrow : claimedJobs.row 1 = some claimedRow := rfl
  have hheld : claimedRow.heldBy "w" := rfl
  exact ((runJob_records_iff hfailure hrow hheld).mpr
    ⟨rfl, rfl, fun _ ↦ rfl, ⟨toPyStr "boom", rfl, by decide⟩, ⟨by decide, rfl⟩,
      Or.inr (Or.inr (by decide))⟩).2

/-- A `ValueError` whose text is U+0000 is not: `run_job` raises, and the attempt is lost. -/
theorem runJob_loses_attempt :
    ¬ ∀ (registry : String → Option (RegisteredTask Unit)) (e : Surroundings Unit)
      (db before : Database Unit) (job : ClaimedJob) (workerId : WorkerId) (exc : PyException)
      (maxAttempts : Option Int) (r : Job),
      failure registry e db job = some (exc, maxAttempts, before) →
      before.jobs.row job.id = some r → r.heldBy workerId → exc.ordinary →
      (∀ m, maxAttempts = some m → 1 ≤ m) →
      (runJob registry e db job workerId).2 = .returned ∧
        Recorded e.failed.now before (runJob registry e db job workerId).1 r exc.permanent
          (maxAttempts.getD r.maxAttempts) := by
  intro h
  obtain ⟨hreturned, -⟩ := h (fun _ ↦ some (failing [0])) alone ⟨claimedJobs, ()⟩
    ⟨claimedJobs, ()⟩ ⟨1, "t", "{}"⟩ "w" ⟨true, false, false, false, .ok [0]⟩ none claimedRow
    rfl rfl rfl rfl (fun m hm ↦ by cases hm)
  have hraised : (runJob (fun _ ↦ some (failing [0])) alone ⟨claimedJobs, ()⟩ ⟨1, "t", "{}"⟩
      "w").2 = .raised true := rfl
  rw [hraised] at hreturned
  cases hreturned

end DurableQueue
