import DurableQueue.Jobs.EnqueueMany
import DurableQueue.Jobs.Lifecycle
import DurableQueue.Reasoning.Batches
import Mathlib.Data.List.Dedup

/-!
# What an operator sees

`get_job`, `list_jobs` and `get_queue_stats`, and the balance between the counts that are shown and
what the calls have answered.
-/

open Reasoning

namespace DurableQueue

/-- The columns that `list_jobs` selects. -/
structure JobListing where
  id : Nat
  task : String
  status : Status
  attempts : Nat
  runAt : Int
  createdAt : Int
  lastError : Option PyStr

def Job.listing (r : Job) : JobListing where
  id := r.id
  task := r.task
  status := r.status
  attempts := r.attempts
  runAt := r.runAt
  createdAt := r.createdAt
  lastError := r.lastError

/-- `ORDER BY created_at DESC`, with ties as a scan comes across them. -/
def Job.newestFirst (rank : Nat → Nat) (a b : Job) : Prop :=
  b.createdAt < a.createdAt ∨ a.createdAt = b.createdAt ∧ rank a.id ≤ rank b.id

instance (rank : Nat → Nat) : DecidableRel (Job.newestFirst rank) :=
  fun _ _ ↦ inferInstanceAs (Decidable (_ ∨ _))

/-- `ORDER BY run_at`. -/
def Job.runOrder (a b : Job) : Prop := a.runAt ≤ b.runAt

instance : DecidableRel Job.runOrder := fun _ _ ↦ inferInstanceAs (Decidable (_ ≤ _))

instance : Std.Total Job.runOrder := ⟨fun a b ↦ Int.le_total a.runAt b.runAt⟩

instance : IsTrans Job Job.runOrder := ⟨fun _ _ _ h h' ↦ Int.le_trans h h'⟩

/-- The age is in microseconds. -/
structure QueueStats where
  pending : Nat
  running : Nat
  succeeded : Nat
  dead : Nat
  oldestPendingAge : Option Int

namespace Jobs

def listJobs (t : Jobs) (rank : Nat → Nat) (status : Option Status) (limit : Nat) :
    List JobListing :=
  (selectRows (fun r ↦ status.all (r.status = ·)) (Job.newestFirst rank) limit t.rows).map
    Job.listing

/-- `SELECT status, count(*) AS n FROM jobs GROUP BY status`. -/
def countsByStatus (t : Jobs) : List (Status × Nat) :=
  (t.rows.map Job.status).dedup.map fun status ↦ (status, (t.rows.map Job.status).count status)

/-- `counts.get(status, 0)`. -/
def countOf (t : Jobs) (status : Status) : Nat := (t.countsByStatus.lookup status).getD 0

/-- `SELECT now() - run_at FROM jobs WHERE status = 'pending' AND run_at <= now() ORDER BY run_at
LIMIT 1`. -/
def oldestPendingAge (t : Jobs) (now : Int) : Option Int :=
  (selectRows (·.due now) Job.runOrder 1 t.rows).head?.map fun r ↦ now - r.runAt

/-- `get_queue_stats`: two statements of one transaction, each with a snapshot of its own. -/
def getQueueStats (now : Int) (t u : Jobs) : QueueStats where
  pending := t.countOf .pending
  running := t.countOf .running
  succeeded := t.countOf .succeeded
  dead := t.countOf .dead
  oldestPendingAge := u.oldestPendingAge now

end Jobs

/-! ## Counting rows -/

section Count

variable {ρ : Type*} {p q : ρ → Bool} {f : ρ → ρ} {l : List ρ} {old new : Bool}

-- An update takes the rows that it changes out of one count and into another.
theorem countP_updateRows (hold : ∀ r ∈ l, p r = true → q r = old)
    (hnew : ∀ r ∈ l, p r = true → q (f r) = new) :
    (updateRows p f l).countP q + old.toNat * l.countP p =
      l.countP q + new.toNat * l.countP p := by
  induction l with
  | nil => rfl
  | cons x l ih =>
      have hrest := ih (fun r hr ↦ hold r (List.mem_cons_of_mem x hr))
        fun r hr ↦ hnew r (List.mem_cons_of_mem x hr)
      have hcons : updateRows p f (x :: l) = (if p x then f x else x) :: updateRows p f l := rfl
      rw [hcons, List.countP_cons, List.countP_cons, List.countP_cons]
      cases hp : p x with
      | false =>
          rw [if_neg Bool.false_ne_true, if_neg Bool.false_ne_true, Nat.add_zero]
          omega
      | true =>
          rw [if_pos rfl, if_pos rfl, hold x List.mem_cons_self hp,
            hnew x List.mem_cons_self hp, Nat.mul_succ, Nat.mul_succ]
          cases old <;> cases new <;> simp only [Bool.toNat_true, Bool.toNat_false, if_true,
            Bool.false_eq_true, if_false] at hrest ⊢ <;> omega

variable {κ : Type*} [DecidableEq κ] {key : ρ → κ}

-- Each key that is selected is that of one row.
theorem countP_keys {sel : List ρ} (hl : (l.map key).Nodup) (hsel : (sel.map key).Nodup)
    (hsub : ∀ r ∈ sel, r ∈ l) :
    l.countP (fun r ↦ decide (key r ∈ sel.map key)) = sel.length := by
  have hperm : ((l.filter fun r ↦ decide (key r ∈ sel.map key)).map key).Perm (sel.map key) := by
    refine (List.perm_ext_iff_of_nodup (hl.sublist (List.filter_sublist.map key)) hsel).mpr ?_
    intro k
    constructor
    · intro hk
      obtain ⟨r, hr, rfl⟩ := List.mem_map.mp hk
      exact of_decide_eq_true (List.mem_filter.mp hr).2
    · intro hk
      obtain ⟨r, hr, rfl⟩ := List.mem_map.mp hk
      exact List.mem_map_of_mem (List.mem_filter.mpr ⟨hsub r hr, decide_eq_true hk⟩)
  have hlen := hperm.length_eq
  rwa [List.length_map, List.length_map, ← List.countP_eq_length_filter] at hlen

theorem countP_rowAt (hl : (l.map key).Nodup) (q : ρ → Bool) (k : κ) :
    l.countP (fun r ↦ decide (key r = k) && q r) = ((rowAt key l k).any q).toNat := by
  induction l with
  | nil => rfl
  | cons x l ih =>
      obtain ⟨hx, hl⟩ := List.nodup_cons.mp hl
      rw [List.countP_cons, rowAt_cons]
      by_cases hk : key x = k
      · have hnone : l.countP (fun r ↦ decide (key r = k) && q r) = 0 := by
          refine List.countP_eq_zero.mpr fun r hr hboth ↦ hx ?_
          rw [Bool.and_eq_true, decide_eq_true_eq] at hboth
          exact List.mem_map.mpr ⟨r, hr, hboth.1.trans hk.symm⟩
        rw [hnone, if_pos hk, decide_eq_true hk, Bool.true_and, Option.any_some]
        cases q x <;> rfl
      · rw [ih hl, if_neg hk, decide_eq_false hk, Bool.false_and, if_neg Bool.false_ne_true]
        rfl

end Count

theorem lookup_graph {α β : Type} [DecidableEq α] (g : α → β) (a : α) (l : List α) :
    (l.map fun x ↦ (x, g x)).lookup a = if a ∈ l then some (g a) else none := by
  induction l with
  | nil => rfl
  | cons x l ih =>
      rw [List.map_cons, List.lookup_cons, ih]
      by_cases hax : a = x
      · rw [beq_iff_eq.mpr hax, if_pos (List.mem_cons.mpr (Or.inl hax)), hax]
      · rw [beq_false_of_ne hax]
        simp only [List.mem_cons, hax, false_or]

namespace Jobs

variable {t u : Jobs} {status : Status}

theorem countOf_eq (t : Jobs) (status : Status) :
    t.countOf status = t.rows.countP fun r ↦ decide (r.status = status) := by
  have hcount : (t.rows.map Job.status).count status =
      t.rows.countP fun r ↦ decide (r.status = status) := by
    rw [List.count, List.countP_map]
    rfl
  unfold countOf countsByStatus
  rw [lookup_graph, ← hcount]
  simp only [List.mem_dedup]
  by_cases hmem : status ∈ t.rows.map Job.status
  · rw [if_pos hmem, Option.getD_some]
  · rw [if_neg hmem, List.count_eq_zero_of_not_mem hmem, Option.getD_none]

/-! ## What moves between the counts -/

/-- `n` jobs have gone from the status `a` to the status `b`. -/
def Moved (t u : Jobs) (n : Nat) (a b : Status) : Prop :=
  ∀ status, u.countOf status + (decide (a = status)).toNat * n =
    t.countOf status + (decide (b = status)).toNat * n

theorem Moved.of_update {p : Job → Bool} {s : SetClause} {a b : Status}
    (ha : ∀ r ∈ t.rows, p r = true → r.status = a)
    (hb : ∀ r ∈ t.rows, p r = true → (s r).status = b) :
    t.Moved (t.update p s) (t.rows.countP p) a b := by
  intro status
  rw [countOf_eq, countOf_eq]
  exact countP_updateRows (fun r hr hp ↦ by rw [ha r hr hp]) fun r hr hp ↦ by rw [hb r hr hp]

theorem Moved.countOf_eq {n : Nat} {a : Status} (h : t.Moved u n a a) (status : Status) :
    u.countOf status = t.countOf status :=
  Nat.add_right_cancel (h status)

theorem Moved.of_selected {ctx : Ctx} {cand : Job → Bool} {before : Job → Job → Prop}
    [DecidableRel before] {n : Nat} {s : SetClause} {a b : Status}
    (ha : ∀ r, cand r = true → r.status = a) (hb : ∀ r, (s r).status = b) :
    t.Moved (t.updateIn (t.selectForUpdate ctx cand before n) s)
      (t.selectForUpdate ctx cand before n).length a b := by
  have hsel : ∀ r ∈ t.selectForUpdate ctx cand before n, r ∈ t.rows :=
    fun _ hr ↦ (mem_selectForUpdate hr).1
  have hcount : t.rows.countP
      (fun r ↦ decide (r.id ∈ (t.selectForUpdate ctx cand before n).map Job.id)) =
        (t.selectForUpdate ctx cand before n).length :=
    countP_keys t.idsNodup (nodup_selectRows t.idsNodup _ before n) hsel
  have hmoved := Moved.of_update (t := t) (s := s) (b := b)
    (p := fun r ↦ decide (r.id ∈ (t.selectForUpdate ctx cand before n).map Job.id)) (a := a)
    (fun r hr hmem ↦ ha r ?_) fun r _ _ ↦ hb r
  · rw [← hcount]
    exact hmoved
  · have hin := (mem_map_id_iff hsel (row_of_mem hr)).mp (of_decide_eq_true hmem)
    exact (mem_selectForUpdate hin).2.1

theorem Moved.of_held {ids : List Nat} {w : WorkerId} {s : SetClause} {b : Status}
    (hb : ∀ r, r.status = .running → (s r).status = b) :
    t.Moved (t.updateHeld ids w s) (t.heldCount ids w) .running b := by
  have hrunning (r : Job) (hr : (decide (r.id ∈ ids) && r.heldBy w) = true) :
      r.status = .running := by
    rw [Bool.and_eq_true] at hr
    exact (Job.heldBy_iff.mp hr.2).2
  have hmoved := Moved.of_update (t := t) (s := s) (b := b) (fun r _ hr ↦ hrunning r hr)
    fun r _ hr ↦ hb r (hrunning r hr)
  rw [List.countP_eq_length_filter] at hmoved
  exact hmoved

theorem Moved.of_id {jobId : Nat} {q : Job → Bool} {s : SetClause} {a b : Status}
    (ha : ∀ r, t.row jobId = some r → q r = true → r.status = a) (hb : ∀ r, (s r).status = b) :
    t.Moved (t.update (fun r ↦ decide (r.id = jobId) && q r) s)
      ((t.row jobId).any q).toNat a b := by
  have hmoved := Moved.of_update (t := t) (s := s) (b := b) (a := a)
    (p := fun r ↦ decide (r.id = jobId) && q r) (fun r hr hmem ↦ ?_) fun r _ _ ↦ hb r
  · rw [countP_rowAt t.idsNodup] at hmoved
    exact hmoved
  · rw [Bool.and_eq_true, decide_eq_true_eq] at hmem
    exact ha r (row_eq_some_iff.mpr ⟨hr, hmem.1⟩) hmem.2

theorem heldCount_singleton (jobId : Nat) (w : WorkerId) :
    t.heldCount [jobId] w = ((t.row jobId).any (·.heldBy w)).toNat := by
  unfold heldCount
  rw [← List.countP_eq_length_filter]
  refine Eq.trans (List.countP_congr fun r _ ↦ ?_) (countP_rowAt t.idsNodup _ jobId)
  rw [Bool.and_eq_true, Bool.and_eq_true, decide_eq_true_eq, decide_eq_true_eq,
    List.mem_singleton]

theorem Moved.of_row {jobId : Nat} {r : Job} {s : SetClause} {b : Status}
    (hr : t.row jobId = some r) (hb : ∀ r, (s r).status = b) :
    t.Moved (t.updateId jobId s) 1 r.status b := by
  have hid : (fun x : Job ↦ decide (x.id = jobId)) = fun x ↦ decide (x.id = jobId) && true :=
    funext fun x ↦ (Bool.and_true _).symm
  have hmoved : t.Moved (t.update (fun x ↦ decide (x.id = jobId) && true) s)
      ((t.row jobId).any fun _ ↦ true).toNat r.status b := by
    refine .of_id (fun x hx _ ↦ ?_) hb
    rw [Option.some.inj (hr.symm.trans hx)]
  rw [← hid, hr] at hmoved
  exact hmoved

-- The second of `mark_failed`'s UPDATEs is made on the row that the first one has found.
theorem failed_moved {jobId : Nat} {w : WorkerId} (maxAttempts : Option Int) {r : Job}
    {s : SetClause} {b : Status} (hr : t.row jobId = some r) (hheld : r.heldBy w = true)
    (hb : ∀ r, (s r).status = b) :
    (∃ r', ((t.updateHeld [jobId] w (.countFailure maxAttempts)).updateId jobId s).row jobId =
        some r' ∧ r'.status = b) ∧
      t.Moved ((t.updateHeld [jobId] w (.countFailure maxAttempts)).updateId jobId s) 1 .running
        b := by
  have hrow := row_updateHeld_of_heldBy hr (List.mem_singleton_self jobId) hheld
    (.countFailure maxAttempts)
  refine ⟨⟨s (SetClause.countFailure maxAttempts r), ?_, hb _⟩, fun status ↦ ?_⟩
  · rw [updateId, row_update, hrow, Option.map_some, if_pos (decide_eq_true (row_id hrow))]
  · have hcounted : t.Moved (t.updateHeld [jobId] w (.countFailure maxAttempts))
        (t.heldCount [jobId] w) .running .running := .of_held fun _ hx ↦ hx
    have hmoved := Moved.of_row hrow hb status
    have hrunning : (SetClause.countFailure maxAttempts r).status = .running :=
      (Job.heldBy_iff.mp hheld).2
    rw [hrunning, hcounted.countOf_eq] at hmoved
    exact hmoved

-- A failure of a job that is held ends its run, one way or the other.
theorem markFailed_moved {ctx : Ctx} {jobId : Nat} {w : WorkerId} {error : PyStr}
    {permanent : Bool} {maxAttempts : Option Int} {draw : Int} {b : Bool}
    (h : t.markFailed ctx jobId w error permanent maxAttempts draw = some (u, b)) :
    (b = false ∧ ∀ status, u.countOf status = t.countOf status) ∨
      b = true ∧ ∃ r, u.row jobId = some r ∧ (r.status = .dead ∨ r.status = .pending) ∧
        t.Moved u 1 .running r.status := by
  cases hheld : (t.row jobId).filter (·.heldBy w) with
  | none =>
      unfold markFailed at h
      rw [hheld] at h
      obtain ⟨rfl, rfl⟩ := Prod.mk.inj (Option.some.inj h)
      refine Or.inl ⟨rfl, Moved.countOf_eq (Moved.of_held fun _ hx ↦ hx)⟩
  | some r =>
      obtain ⟨hr, hheld'⟩ := Option.filter_eq_some_iff.mp hheld
      right
      unfold markFailed at h
      rw [hheld] at h
      simp only [Option.map_some] at h
      split at h
      · cases h
      split at h
      · split at h
        · obtain ⟨rfl, rfl⟩ := Prod.mk.inj (Option.some.inj h)
          obtain ⟨⟨r', hr', hdead⟩, hmoved⟩ :=
            failed_moved (s := .bury ctx.now error) maxAttempts hr hheld'
              fun _ ↦ rfl
          exact ⟨rfl, r', hr', Or.inl hdead, hdead ▸ hmoved⟩
        · cases h
      · split at h
        · cases h
        · rename_i delay _
          split at h
          · obtain ⟨rfl, rfl⟩ := Prod.mk.inj (Option.some.inj h)
            obtain ⟨⟨r', hr', hpending⟩, hmoved⟩ :=
              failed_moved (s := .reschedule (ctx.now + delay) error) maxAttempts hr hheld'
                fun _ ↦ rfl
            exact ⟨rfl, r', hr', Or.inr hpending, hpending ▸ hmoved⟩
          · cases h

theorem countOf_of_rows (h : u.rows = t.rows) (status : Status) :
    u.countOf status = t.countOf status := by
  rw [countOf_eq, countOf_eq, h]

theorem countOf_insert {task : String} {args : Json} {key : Option String} {now : Int}
    (h : u.rows = t.rows ++ [Job.insert t.nextId task args key now]) (status : Status) :
    u.countOf status = t.countOf status + (decide (Status.pending = status)).toNat := by
  rw [countOf_eq, countOf_eq, h, List.countP_append, List.countP_singleton]
  change _ + (if decide (Status.pending = status) = true then 1 else 0) = _
  cases decide (Status.pending = status) <;> rfl

-- An id from `n` on is that of a new row, unless the statement has touched that row before.
theorem countOf_enqueue {n : Nat} {touched : List Nat} {key : Option String} (task : String)
    (args : Json) (now : Int) (hn : n ≤ t.nextId)
    (htouched : ∀ r ∈ t.rows, n ≤ r.id → r.id ∈ touched)
    (hfree : ∀ r, key.bind t.rowWithKey = some r → r.id ∉ touched) :
    (∀ status, (t.enqueue task args key now).1.countOf status = t.countOf status +
      (decide (Status.pending = status)).toNat *
        (decide (n ≤ (t.enqueue task args key now).2)).toNat) ∧
    ∀ r ∈ (t.enqueue task args key now).1.rows, n ≤ r.id →
      r.id ∈ (t.enqueue task args key now).2 :: touched := by
  have hnew {u : Jobs} {id : Nat} {key : Option String} (hid : id = t.nextId)
      (hu : u.rows = t.rows ++ [Job.insert t.nextId task args key now]) :
      (∀ status, u.countOf status = t.countOf status +
        (decide (Status.pending = status)).toNat * (decide (n ≤ id)).toNat) ∧
      ∀ r ∈ u.rows, n ≤ r.id → r.id ∈ id :: touched := by
    refine ⟨fun status ↦ ?_, fun r hr hnr ↦ ?_⟩
    · rw [hid, decide_eq_true hn, Bool.toNat_true, Nat.mul_one]
      exact countOf_insert hu status
    · rw [hu] at hr
      rcases List.mem_append.mp hr with hr | hr
      · exact List.mem_cons_of_mem id (htouched r hr hnr)
      · rw [List.mem_singleton.mp hr, hid]
        exact List.mem_cons_self
  cases key with
  | none => exact hnew (rows_enqueue_none t task args now).2 (rows_enqueue_none t task args now).1
  | some key =>
      cases hkey : t.rowWithKey key with
      | none =>
          obtain ⟨hrows, hid⟩ := rows_enqueue_new (t := t) task args now hkey
          exact hnew hid hrows
      | some r =>
          obtain ⟨hrows, hid⟩ := rows_enqueue_conflict task args now hkey
          have hold : ¬ n ≤ r.id := fun hnr ↦
            hfree r hkey (htouched r (rowWithKey_some hkey).1 hnr)
          refine ⟨fun status ↦ ?_, fun x hx hnx ↦ ?_⟩
          · rw [countOf_of_rows hrows, hid, decide_eq_false hold, Bool.toNat_false, Nat.mul_zero,
              Nat.add_zero]
          · exact List.mem_cons_of_mem _ (htouched x (hrows ▸ hx) hnx)

theorem nextId_le_enqueue (t : Jobs) (task : String) (args : Json) (key : Option String)
    (now : Int) : t.nextId ≤ (t.enqueue task args key now).1.nextId := by
  refine Nat.le_of_not_lt fun hlt ↦ ?_
  exact Nat.lt_irrefl _ (row_enqueue_of_lt task args key now hlt).2

theorem countOf_enqueueRows {n : Nat} {task : String} {now : Int}
    {items : List (Json × Option String)} {touched ids : List Nat}
    (hn : n ≤ t.nextId) (htouched : ∀ r ∈ t.rows, n ≤ r.id → r.id ∈ touched)
    (h : enqueueRows task now t touched items = some (u, ids)) (status : Status) :
    u.countOf status = t.countOf status +
      (decide (Status.pending = status)).toNat * ids.countP (decide <| n ≤ ·) := by
  induction items generalizing t touched ids with
  | nil =>
      cases h
      rfl
  | cons item items ih =>
      obtain ⟨args, key⟩ := item
      rw [enqueueRows] at h
      split at h
      · cases h
      · rename_i hfree
        obtain ⟨⟨v, ids'⟩, hv, he⟩ := Option.map_eq_some_iff.mp h
        obtain ⟨rfl, rfl⟩ := Prod.mk.inj he
        obtain ⟨hcount, htouched'⟩ :=
          countOf_enqueue task args now hn htouched fun r hr hmem ↦
            hfree (by rw [hr, Option.any_some, decide_eq_true hmem])
        have hrest := ih (hn.trans (nextId_le_enqueue t task args key now)) htouched' hv
        change v.countOf status = t.countOf status + (decide (Status.pending = status)).toNat *
          ((t.enqueue task args key now).2 :: ids').countP (decide <| n ≤ ·)
        rw [hrest, hcount, List.countP_cons, Nat.mul_add, Nat.add_right_comm, Nat.add_assoc]
        cases decide (n ≤ (t.enqueue task args key now).2) <;> rfl

-- What a deletion leaves.
theorem countP_delete {p q : Job → Bool} {b : Bool} {l : List Job}
    (hb : ∀ r ∈ l, p r = true → q r = b) :
    (l.filter fun r ↦ !p r).countP q + b.toNat * l.countP p = l.countP q := by
  induction l with
  | nil => rfl
  | cons x l ih =>
      have hrest := ih fun r hr ↦ hb r (List.mem_cons_of_mem x hr)
      rw [List.filter_cons, List.countP_cons, List.countP_cons]
      cases hp : p x with
      | false =>
          rw [Bool.not_false, if_pos rfl, List.countP_cons, if_neg Bool.false_ne_true, Nat.add_zero]
          omega
      | true =>
          rw [Bool.not_true, if_neg Bool.false_ne_true, if_pos rfl, hb x List.mem_cons_self hp,
            Nat.mul_succ]
          cases b with
          | false => exact hrest
          | true => exact congrArg (· + 1) hrest

theorem countOf_finished (t : Jobs) :
    t.countOf .succeeded + t.countOf .dead =
      t.rows.countP fun r ↦ r.status = .succeeded || r.status = .dead := by
  rw [countOf_eq, countOf_eq]
  induction t.rows with
  | nil => rfl
  | cons r l ih =>
      rw [List.countP_cons, List.countP_cons, List.countP_cons, ← ih]
      cases r.status <;> simp <;> omega

theorem countOf_deleted (t : Jobs) (ctx : Ctx) (olderThan : Int) (batch : Nat) :
    let (u, n) := t.deleteCompletedJobs ctx olderThan batch
    u.countOf .pending = t.countOf .pending ∧ u.countOf .running = t.countOf .running ∧
      u.countOf .succeeded + u.countOf .dead + n = t.countOf .succeeded + t.countOf .dead := by
  have hsel : ∀ r ∈ t.completed ctx olderThan batch, r ∈ t.rows :=
    fun _ hr ↦ (mem_selectForUpdate hr).1
  have hfinished (r : Job) (hr : r ∈ t.rows)
      (hmem : decide (r.id ∈ (t.completed ctx olderThan batch).map Job.id) = true) :
      (r.status = .succeeded || r.status = .dead) = true := by
    have hin := (mem_map_id_iff hsel (row_of_mem hr)).mp (of_decide_eq_true hmem)
    exact (Bool.and_eq_true_iff.mp (mem_selectForUpdate hin).2.1).1
  have hlen : t.rows.countP
      (fun r ↦ decide (r.id ∈ (t.completed ctx olderThan batch).map Job.id)) =
        (t.completed ctx olderThan batch).length :=
    countP_keys t.idsNodup (nodup_selectRows t.idsNodup _ _ batch) hsel
  have hother (status : Status) (hne : status ≠ .succeeded ∧ status ≠ .dead) :
      (t.deleteCompletedJobs ctx olderThan batch).1.countOf status = t.countOf status := by
    have hnone : ∀ r ∈ t.rows,
        decide (r.id ∈ (t.completed ctx olderThan batch).map Job.id) = true →
          decide (r.status = status) = false := by
      refine fun r hr hmem ↦ decide_eq_false fun hstatus ↦ ?_
      have h := hfinished r hr hmem
      rw [hstatus, Bool.or_eq_true, decide_eq_true_eq, decide_eq_true_eq] at h
      exact h.elim hne.1 hne.2
    have hcount := countP_delete hnone
    rw [countOf_eq, countOf_eq]
    rw [Bool.toNat_false, Nat.zero_mul, Nat.add_zero] at hcount
    exact hcount
  refine ⟨hother _ ⟨by decide, by decide⟩, hother _ ⟨by decide, by decide⟩, ?_⟩
  have hcount := countP_delete (l := t.rows)
    (q := fun r ↦ r.status = .succeeded || r.status = .dead) (b := true) hfinished
  rw [countOf_finished, countOf_finished]
  rw [hlen, Bool.toNat_true, Nat.one_mul] at hcount
  exact hcount

end Jobs

/-! ## The balance -/

/-- The ways that a job may go. -/
inductive Flow where
  | insert
  | claim
  | release
  | recover
  | deadLetter
  | succeed
  | reschedule
  | bury
  | retry
  | delete
  deriving DecidableEq

namespace Flow

/-- `n` jobs, all of them this way. -/
def only (f : Flow) (n : Nat) : Flow → Nat := fun g ↦ if g = f then n else 0

/-- Where the jobs come from and go to; those that are inserted come from nowhere, and those that
are deleted have either succeeded or died. -/
def ends : Flow → Option (Status × Status)
  | insert | delete => none
  | claim => some (.pending, .running)
  | release | recover | reschedule => some (.running, .pending)
  | deadLetter | bury => some (.running, .dead)
  | succeed => some (.running, .succeeded)
  | retry => some (.dead, .pending)

end Flow

/-- How many jobs a call moves, as its answer has it.  An enqueue has inserted the rows with new
ids; `mark_failed` answers that the worker held the job, and the row says what has become of it. -/
def Call.flow (c : Call) (t : Jobs) : Flow → Nat :=
  match c.op with
  | .enqueue task args key =>
      Flow.only .insert (decide (t.nextId ≤ (t.enqueue task args key c.now).2)).toNat
  | .enqueueMany task argsList keys =>
      Flow.only .insert <| (((t.enqueueMany task argsList keys c.now).map (·.2)).getD []).countP
        (decide <| t.nextId ≤ ·)
  | .claimJobs w lease batch => Flow.only .claim (t.claimJobs c.toCtx w lease batch).2.length
  | .extendLease .. | .extendLeases .. => fun _ ↦ 0
  | .deadLetterExpired batch => Flow.only .deadLetter (t.deadLetterExpired c.toCtx batch).2
  | .recoverExpired batch => Flow.only .recover (t.recoverExpired c.toCtx batch).2
  | .releaseJobs ids w => Flow.only .release (t.releaseJobs ids w).2
  | .markSucceeded id w => Flow.only .succeed (t.markSucceeded c.toCtx id w).2.toNat
  | .markFailed id w error permanent maxAttempts draw =>
      match t.markFailed c.toCtx id w error permanent maxAttempts draw with
      | some (u, true) =>
          Flow.only (if (u.row id).any (·.status = .dead) then .bury else .reschedule) 1
      | _ => fun _ ↦ 0
  | .retryJob id => Flow.only .retry (t.retryJob c.toCtx id).2.toNat
  | .deleteCompletedJobs olderThan batch =>
      Flow.only .delete (t.deleteCompletedJobs c.toCtx olderThan batch).2

/-- What the calls of a run have moved in all. -/
def flows : Jobs → List Call → Flow → Nat
  | _, [], _ => 0
  | t, c :: cs, f => c.flow t f + flows (c.run t) cs f

/-- What has come into each status, and what has left it. -/
structure Balanced (t u : Jobs) (flow : Flow → Nat) : Prop where
  pending : u.countOf .pending + flow .claim = t.countOf .pending +
    (flow .insert + flow .release + flow .recover + flow .reschedule + flow .retry)
  running : u.countOf .running + (flow .release + flow .recover + flow .deadLetter +
    flow .succeed + flow .reschedule + flow .bury) = t.countOf .running + flow .claim
  finished : u.countOf .succeeded + u.countOf .dead + (flow .retry + flow .delete) =
    t.countOf .succeeded + t.countOf .dead + (flow .succeed + flow .deadLetter + flow .bury)

namespace Balanced

variable {t u v : Jobs} {flow flow' : Flow → Nat} {n : Nat}

theorem trans (h : Balanced t u flow) (h' : Balanced u v flow') :
    Balanced t v fun f ↦ flow f + flow' f := by
  obtain ⟨hp, hr, hf⟩ := h
  obtain ⟨hp', hr', hf'⟩ := h'
  exact ⟨by omega, by omega, by omega⟩

theorem of_same (h : ∀ status, u.countOf status = t.countOf status) :
    Balanced t u fun _ ↦ 0 := by
  refine ⟨?_, ?_, ?_⟩
  · rw [h]
  · rw [h]
  · rw [h, h]

theorem of_inserted (h : ∀ status, u.countOf status =
    t.countOf status + (decide (Status.pending = status)).toNat * n) :
    Balanced t u (Flow.only .insert n) := by
  have hp := h .pending
  have hr := h .running
  have hs := h .succeeded
  have hd := h .dead
  simp at hp hr hs hd
  refine ⟨?_, ?_, ?_⟩ <;> simp [Flow.only] <;> omega

-- One flow at a time, between the two statuses that it has.
theorem of_moved {f : Flow} {a b : Status} (hf : f.ends = some (a, b)) (h : t.Moved u n a b) :
    Balanced t u (Flow.only f n) := by
  have hp := h .pending
  have hr := h .running
  have hs := h .succeeded
  have hd := h .dead
  cases f with
  | insert | delete => cases hf
  | _ =>
      obtain ⟨rfl, rfl⟩ := Prod.mk.inj (Option.some.inj hf)
      simp at hp hr hs hd
      refine ⟨?_, ?_, ?_⟩ <;> simp [Flow.only] <;> omega

end Balanced

theorem Call.balanced (c : Call) (t : Jobs) : Balanced t (c.run t) (c.flow t) := by
  obtain ⟨ctx, op⟩ := c
  have hnew : ∀ r ∈ t.rows, t.nextId ≤ r.id → r.id ∈ ([] : List Nat) :=
    fun r hr hle ↦ absurd (t.idsLt r hr) (Nat.not_lt.mpr hle)
  cases op with
  | enqueue task args key =>
      exact .of_inserted
        (Jobs.countOf_enqueue task args ctx.now le_rfl hnew fun _ _ ↦ List.not_mem_nil).1
  | enqueueMany task argsList keys =>
      change Balanced t
        (((t.enqueueMany task argsList keys ctx.now).map (·.1)).getD
          (t.skipIds (t.enqueueManyDrawn task argsList keys ctx.now)))
        (Flow.only .insert <|
          (((t.enqueueMany task argsList keys ctx.now).map (·.2)).getD []).countP
            (decide <| t.nextId ≤ ·))
      cases hmany : t.enqueueMany task argsList keys ctx.now with
      | none => exact .of_inserted fun status ↦ (Nat.add_zero _).symm
      | some res =>
          obtain ⟨u, ids⟩ := res
          refine .of_inserted fun status ↦ ?_
          unfold Jobs.enqueueMany at hmany
          split at hmany
          · obtain ⟨rfl, rfl⟩ := Prod.mk.inj (Option.some.inj hmany)
            rfl
          · simp only at hmany
            split at hmany
            · cases hmany
            · exact Jobs.countOf_enqueueRows le_rfl hnew hmany status
  | claimJobs w lease batch =>
      have hmoved : t.Moved (t.claimJobs ctx w lease batch).1 (t.claimable ctx batch).length
          .pending .running :=
        .of_selected (fun _ hdue ↦ (Job.due_iff.mp hdue).1) fun _ ↦ rfl
      have hlen : (t.claimJobs ctx w lease batch).2.length = (t.claimable ctx batch).length :=
        (t.claimJobs_perm ctx w lease batch).length_eq.trans (List.length_map _)
      rw [← hlen] at hmoved
      exact Balanced.of_moved (f := .claim) rfl hmoved
  | extendLease id w lease | extendLeases ids w lease =>
      exact .of_same (Jobs.Moved.of_held fun _ hr ↦ hr).countOf_eq
  | deadLetterExpired batch =>
      refine Balanced.of_moved (f := .deadLetter) rfl (Jobs.Moved.of_selected ?_ fun _ ↦ rfl)
      exact fun r hr ↦ (Job.expired_iff.mp (Bool.and_eq_true_iff.mp hr).1).1
  | recoverExpired batch =>
      refine Balanced.of_moved (f := .recover) rfl (Jobs.Moved.of_selected ?_ fun _ ↦ rfl)
      exact fun r hr ↦ (Job.expired_iff.mp hr).1
  | releaseJobs ids w =>
      exact Balanced.of_moved (f := .release) rfl (Jobs.Moved.of_held fun _ _ ↦ rfl)
  | markSucceeded id w =>
      have hmoved : t.Moved (t.markSucceeded ctx id w).1 (t.heldCount [id] w) .running .succeeded :=
        .of_held fun _ _ ↦ rfl
      rw [Jobs.heldCount_singleton] at hmoved
      exact Balanced.of_moved (f := .succeed) rfl hmoved
  | markFailed id w error permanent maxAttempts draw =>
      change Balanced t
        (((t.markFailed ctx id w error permanent maxAttempts draw).map (·.1)).getD t)
        (match t.markFailed ctx id w error permanent maxAttempts draw with
          | some (u, true) =>
              Flow.only (if (u.row id).any (·.status = .dead) then .bury else .reschedule) 1
          | _ => fun _ ↦ 0)
      cases hfailed : t.markFailed ctx id w error permanent maxAttempts draw with
      | none => exact .of_same fun _ ↦ rfl
      | some res =>
          obtain ⟨u, held⟩ := res
          rcases Jobs.markFailed_moved hfailed with ⟨rfl, hsame⟩ | ⟨rfl, r, hr, hend, hmoved⟩
          · exact .of_same hsame
          · refine .of_moved ?_ hmoved
            rw [hr, Option.any_some]
            rcases hend with hdead | hpending
            · rw [hdead]
              rfl
            · rw [hpending]
              rfl
  | retryJob id =>
      refine Balanced.of_moved (f := .retry) rfl (Jobs.Moved.of_id ?_ fun _ ↦ rfl)
      exact fun r _ hr ↦ of_decide_eq_true hr
  | deleteCompletedJobs olderThan batch =>
      obtain ⟨hp, hr, hf⟩ := t.countOf_deleted ctx olderThan batch
      exact ⟨hp, hr, (congrArg (_ + ·) (Nat.zero_add _)).trans hf⟩

theorem balanced_runCalls (t : Jobs) (cs : List Call) :
    Balanced t (runCalls t cs) (flows t cs) := by
  induction cs generalizing t with
  | nil => exact .of_same fun _ ↦ rfl
  | cons c cs ih => exact (c.balanced t).trans (ih (c.run t))

/-! ## The oldest due job -/

section Head

variable {ρ : Type*}

-- The first row is a candidate that comes before all of them, if there are any.
theorem head?_selectRows (before : ρ → ρ → Prop) [DecidableRel before] [Std.Total before]
    [IsTrans ρ before] (cand : ρ → Bool) (l : List ρ) :
    (∃ r, (selectRows cand before 1 l).head? = some r ∧ (r ∈ l ∧ cand r = true) ∧
        ∀ x ∈ l, cand x = true → before r x) ∨
      (selectRows cand before 1 l).head? = none ∧ ∀ x ∈ l, ¬ cand x = true := by
  have hperm := List.perm_insertionSort before (l.filter cand)
  have hsorted := List.pairwise_insertionSort before (l.filter cand)
  have hmem {x : ρ} : x ∈ (l.filter cand).insertionSort before ↔ x ∈ l ∧ cand x = true :=
    hperm.mem_iff.trans List.mem_filter
  unfold selectRows
  cases hsort : (l.filter cand).insertionSort before with
  | nil =>
      rw [hsort] at hmem
      exact Or.inr ⟨rfl, fun x hx hc ↦ List.not_mem_nil (hmem.mpr ⟨hx, hc⟩)⟩
  | cons r rest =>
      rw [hsort] at hmem hsorted
      refine Or.inl ⟨r, rfl, hmem.mp List.mem_cons_self, fun x hx hc ↦ ?_⟩
      rcases List.mem_cons.mp (hmem.mpr ⟨hx, hc⟩) with rfl | hx
      · exact (Std.Total.total x x).elim id id
      · exact (List.pairwise_cons.mp hsorted).1 x hx

end Head

namespace Jobs

variable {t : Jobs}

-- No claim takes an older job than the one that the age is of.
theorem oldestPendingAge_of_claimable {ctx : Ctx} {batch : Nat} {r : Job}
    (hr : r ∈ t.claimable ctx batch) :
    ∃ age, t.oldestPendingAge ctx.now = some age ∧ 0 ≤ ctx.now - r.runAt ∧
      ctx.now - r.runAt ≤ age := by
  obtain ⟨hmem, hdue, -⟩ := mem_selectForUpdate hr
  have hrun := (Job.due_iff.mp hdue).2
  unfold oldestPendingAge
  rcases head?_selectRows Job.runOrder (·.due ctx.now) t.rows with
    ⟨x, hx, -, hfirst⟩ | ⟨-, hnone⟩
  · rw [hx]
    have hle : x.runAt ≤ r.runAt := hfirst r hmem hdue
    exact ⟨ctx.now - x.runAt, rfl, by omega, by omega⟩
  · exact absurd hdue (hnone r hmem)

-- And with no row locked, a claim takes that one.
theorem oldestPendingAge_eq (t : Jobs) (now : Int) :
    t.oldestPendingAge now = (t.claimable (.alone now) 1).head?.map fun r ↦ now - r.runAt := by
  have hcand : (fun r : Job ↦ r.due now && !(Ctx.alone now).locked r.id) = (·.due now) :=
    funext fun r ↦ Bool.and_true _
  have hclaim : t.claimable (.alone now) 1 = selectRows (·.due now) Job.claimOrder 1 t.rows := by
    unfold claimable selectForUpdate
    rw [← hcand]
    rfl
  rw [hclaim]
  unfold oldestPendingAge
  rcases head?_selectRows Job.runOrder (·.due now) t.rows with
    ⟨x, hx, ⟨hxmem, hxdue⟩, hfirst⟩ | ⟨hx, hnone⟩
  · rcases head?_selectRows Job.claimOrder (·.due now) t.rows with
      ⟨y, hy, ⟨hymem, hydue⟩, hfirst'⟩ | ⟨-, hnone⟩
    · rw [hx, hy, Option.map_some, Option.map_some]
      have hxy : x.runAt ≤ y.runAt := hfirst y hymem hydue
      have hyx : y.claimOrder x := hfirst' x hxmem hxdue
      unfold Job.claimOrder at hyx
      exact congrArg some (by omega)
    · exact absurd hxdue (hnone x hxmem)
  · rcases head?_selectRows Job.claimOrder (·.due now) t.rows with
      ⟨y, -, ⟨hymem, hydue⟩, -⟩ | ⟨hy, -⟩
    · exact absurd hydue (hnone y hymem)
    · rw [hx, hy]

-- `ls --status` shows as many jobs as there are, up to its limit.
theorem length_listJobs (t : Jobs) (rank : Nat → Nat) (status : Status) (limit : Nat) :
    (t.listJobs rank (some status) limit).length = min limit (t.countOf status) := by
  unfold listJobs selectRows
  rw [List.length_map, List.length_take, List.length_insertionSort, countOf_eq,
    List.countP_eq_length_filter]
  rfl

end Jobs

/-- The counts that `get_queue_stats` returns are the balance of what all calls since the empty
table have answered.  The age that it returns, from a snapshot that may be later, is that of the
job that an unlocked claim would take there first, and no claim at that time takes an older one. -/
theorem stats_balance (cs cs' : List Call) (now : Int) :
    let t := runCalls .empty cs
    let u := runCalls t cs'
    let stats := Jobs.getQueueStats now t u
    let moved := flows .empty cs
    stats.pending + moved .claim = moved .insert + moved .release + moved .recover +
      moved .reschedule + moved .retry ∧
    stats.running + (moved .release + moved .recover + moved .deadLetter + moved .succeed +
      moved .reschedule + moved .bury) = moved .claim ∧
    stats.succeeded + stats.dead + (moved .retry + moved .delete) =
      moved .succeed + moved .deadLetter + moved .bury ∧
    (∀ status limit rank,
      (t.listJobs rank (some status) limit).length = min limit (t.countOf status)) ∧
    stats.oldestPendingAge =
      ((u.claimable (.alone now) 1).head?.map fun r ↦ now - r.runAt) ∧
    ∀ ctx batch, ctx.now = now → ∀ r ∈ u.claimable ctx batch,
      ∃ age, stats.oldestPendingAge = some age ∧ 0 ≤ now - r.runAt ∧ now - r.runAt ≤ age := by
  intro t u stats moved
  obtain ⟨hpending, hrunning, hfinished⟩ := balanced_runCalls .empty cs
  refine ⟨?_, ?_, ?_, fun status limit rank ↦ t.length_listJobs rank status limit,
    u.oldestPendingAge_eq now, ?_⟩
  · exact hpending.trans (Nat.zero_add _)
  · exact hrunning.trans (Nat.zero_add _)
  · exact hfinished.trans (Nat.zero_add _)
  · rintro ctx batch rfl r hr
    exact Jobs.oldestPendingAge_of_claimable hr

end DurableQueue
