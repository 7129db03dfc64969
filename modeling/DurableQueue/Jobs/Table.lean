import DurableQueue.Reasoning.Rows

/-!
# The jobs table

`sql/schema.sql`: one row for each job, its defaults and its two uniqueness constraints.  An
instant is its number of microseconds since the epoch, the resolution of a `timestamptz` and of a
`timedelta`.
-/

open Reasoning

namespace DurableQueue

/-- `timedelta(seconds=n)`. -/
def seconds (n : Int) : Int := n * 1000000

/-- What a column of type `int` holds. -/
def fitsInt (n : Int) : Bool := decide (-2147483648 ≤ n ∧ n ≤ 2147483647)

abbrev WorkerId := String

/-- A `jsonb` value, carried but never looked into. -/
abbrev Json := String

/-- A Python `str` as its code points, so that lone surrogates and U+0000 can occur in it. -/
abbrev PyStr := List Nat

inductive Status where
  | pending
  | running
  | succeeded
  | dead
  deriving DecidableEq, Repr

structure Job where
  id : Nat
  task : String
  args : Json
  idempotencyKey : Option String
  status : Status
  runAt : Int
  attempts : Nat
  maxAttempts : Int
  recoveries : Nat
  maxRecoveries : Int
  lockedBy : Option WorkerId
  lockedUntil : Option Int
  lastError : Option PyStr
  createdAt : Int
  finishedAt : Option Int
  deriving DecidableEq, Repr

/-- A row as `INSERT INTO jobs (task, args, idempotency_key)` leaves it: the rest are defaults. -/
def Job.insert (id : Nat) (task : String) (args : Json) (key : Option String) (now : Int) :
    Job where
  id := id
  task := task
  args := args
  idempotencyKey := key
  status := .pending
  runAt := now
  attempts := 0
  maxAttempts := 5
  recoveries := 0
  maxRecoveries := 10
  lockedBy := none
  lockedUntil := none
  lastError := none
  createdAt := now
  finishedAt := none

/-- What an UPDATE writes.  None of the queue's statements gives a row another id or key, so none
can run into a uniqueness constraint. -/
structure SetClause where
  set : Job → Job
  keepsId : ∀ r, (set r).id = r.id
  keepsKey : ∀ r, (set r).idempotencyKey = r.idempotencyKey

instance : CoeFun SetClause fun _ ↦ Job → Job := ⟨SetClause.set⟩

/-- The table together with its id sequence.  The proofs are its PRIMARY KEY and UNIQUE
constraints; NULL keys are exempt from the second. -/
structure Jobs where
  rows : List Job
  nextId : Nat
  idsNodup : (rows.map Job.id).Nodup
  idsLt : ∀ r ∈ rows, r.id < nextId
  keysNodup : (rows.filterMap Job.idempotencyKey).Nodup

namespace Jobs

@[ext] theorem ext {t u : Jobs} (hr : t.rows = u.rows) (hn : t.nextId = u.nextId) : t = u := by
  cases t; cases u
  simp only at hr hn
  subst hr hn
  rfl

instance : DecidableEq Jobs := fun t u ↦
  decidable_of_iff (t.rows = u.rows ∧ t.nextId = u.nextId)
    ⟨fun h ↦ ext h.1 h.2, fun h ↦ h ▸ ⟨rfl, rfl⟩⟩

def empty : Jobs := ⟨[], 1, List.nodup_nil, by simp, List.nodup_nil⟩

/-- The row with primary key `id`. -/
def row (t : Jobs) (id : Nat) : Option Job := rowAt Job.id t.rows id

/-- The row whose idempotency key is `key`. -/
def rowWithKey (t : Jobs) (key : String) : Option Job :=
  t.rows.find? fun r ↦ r.idempotencyKey = some key

theorem row_eq_some_iff {t : Jobs} {id : Nat} {r : Job} :
    t.row id = some r ↔ r ∈ t.rows ∧ r.id = id :=
  rowAt_eq_some_iff t.idsNodup

theorem row_id {t : Jobs} {id : Nat} {r : Job} (h : t.row id = some r) : r.id = id :=
  (row_eq_some_iff.mp h).2

theorem row_mem {t : Jobs} {id : Nat} {r : Job} (h : t.row id = some r) : r ∈ t.rows :=
  (row_eq_some_iff.mp h).1

theorem row_of_mem {t : Jobs} {r : Job} (h : r ∈ t.rows) : t.row r.id = some r :=
  row_eq_some_iff.mpr ⟨h, rfl⟩

theorem row_lt {t : Jobs} {id : Nat} {r : Job} (h : t.row id = some r) : id < t.nextId :=
  row_id h ▸ t.idsLt r (row_mem h)

theorem row_nextId (t : Jobs) : t.row t.nextId = none := by
  cases h : t.row t.nextId with
  | none => rfl
  | some r => exact absurd (row_lt h) (Nat.lt_irrefl _)

theorem rows_nodup (t : Jobs) : t.rows.Nodup := t.idsNodup.of_map _

theorem rowWithKey_none_iff {t : Jobs} {key : String} :
    t.rowWithKey key = none ↔ ∀ r ∈ t.rows, r.idempotencyKey ≠ some key := by
  simp only [rowWithKey, List.find?_eq_none, decide_eq_true_eq, ne_eq]

theorem rowWithKey_some {t : Jobs} {key : String} {r : Job} (h : t.rowWithKey key = some r) :
    r ∈ t.rows ∧ r.idempotencyKey = some key := by
  unfold rowWithKey at h
  exact ⟨List.mem_of_find?_eq_some h, by simpa using List.find?_some h⟩

/-- The UNIQUE constraint: two rows with one key are one row. -/
theorem eq_of_key {t : Jobs} {r x : Job} {key : String} (hr : r ∈ t.rows) (hx : x ∈ t.rows)
    (hrk : r.idempotencyKey = some key) (hxk : x.idempotencyKey = some key) : r = x := by
  have h := t.keysNodup
  obtain ⟨rows, n, hi, hlt, hk⟩ := t
  simp only at hr hx h
  clear hi hlt hk
  -- by induction on the rows: the first of the two takes the key away from the rest
  induction rows with
  | nil => exact absurd hr List.not_mem_nil
  | cons y ys ih =>
      have hmem {z : Job} (hz : z ∈ ys) (hzk : z.idempotencyKey = some key) :
          key ∈ ys.filterMap Job.idempotencyKey := List.mem_filterMap.mpr ⟨z, hz, hzk⟩
      have hys : (ys.filterMap Job.idempotencyKey).Nodup :=
        h.sublist ((List.sublist_cons_self y ys).filterMap _)
      rcases List.mem_cons.mp hr with hry | hr' <;> rcases List.mem_cons.mp hx with hxy | hx'
      · rw [hry, hxy]
      · rw [List.filterMap_cons_some (hry ▸ hrk)] at h
        exact absurd (hmem hx' hxk) (List.nodup_cons.mp h).1
      · rw [List.filterMap_cons_some (hxy ▸ hxk)] at h
        exact absurd (hmem hr' hrk) (List.nodup_cons.mp h).1
      · exact ih hr' hx' hys

/-! ## `UPDATE`, `DELETE`, `INSERT` -/

/-- `UPDATE jobs SET s WHERE p`. -/
def update (t : Jobs) (p : Job → Bool) (s : SetClause) : Jobs where
  rows := updateRows p s.set t.rows
  nextId := t.nextId
  idsNodup := by rw [map_updateRows fun r _ ↦ s.keepsId r]; exact t.idsNodup
  idsLt := by
    intro r hr
    have hm : r.id ∈ (updateRows p s.set t.rows).map Job.id := List.mem_map_of_mem hr
    rw [map_updateRows fun r _ ↦ s.keepsId r] at hm
    obtain ⟨x, hx, he⟩ := List.mem_map.mp hm
    exact he ▸ t.idsLt x hx
  -- the column of keys is the same list as before
  keysNodup := by
    have h := congrArg (List.filterMap fun k : Option String ↦ k)
      (map_updateRows (p := p) (fun r _ ↦ s.keepsKey r) t.rows)
    rw [List.filterMap_map, List.filterMap_map] at h
    exact h ▸ t.keysNodup

/-- `DELETE FROM jobs WHERE p`. -/
def delete (t : Jobs) (p : Job → Bool) : Jobs where
  rows := t.rows.filter fun r ↦ !p r
  nextId := t.nextId
  idsNodup := t.idsNodup.sublist (List.filter_sublist.map _)
  idsLt r hr := t.idsLt r (List.mem_filter.mp hr).1
  keysNodup := t.keysNodup.sublist (List.filter_sublist.filterMap _)

/-- Append a row under a key that no row has yet. -/
def append (t : Jobs) (task : String) (args : Json) (key : Option String) (now : Int)
    (hkey : ∀ k, key = some k → t.rowWithKey k = none) : Jobs where
  rows := t.rows ++ [Job.insert t.nextId task args key now]
  nextId := t.nextId + 1
  idsNodup := by
    rw [List.map_append, List.nodup_append]
    refine ⟨t.idsNodup, List.nodup_singleton _, fun a ha b hb ↦ ?_⟩
    obtain ⟨r, hr, rfl⟩ := List.mem_map.mp ha
    rw [List.map_singleton, List.mem_singleton] at hb
    exact hb ▸ (t.idsLt r hr).ne
  idsLt := by
    intro r hr
    rcases List.mem_append.mp hr with hr | hr
    · exact Nat.lt_succ_of_lt (t.idsLt r hr)
    · rw [List.mem_singleton.mp hr]
      exact Nat.lt_succ_self _
  -- NULL adds nothing to the column, and a key is not in it yet
  keysNodup := by
    rw [List.filterMap_append, List.nodup_append]
    refine ⟨t.keysNodup, ?_, fun a ha b hb ↦ ?_⟩
    · cases key with
      | none => exact List.nodup_nil
      | some k => exact List.nodup_singleton k
    · obtain ⟨r, hr, hra⟩ := List.mem_filterMap.mp ha
      obtain ⟨x, hx, hxb⟩ := List.mem_filterMap.mp hb
      rw [List.mem_singleton.mp hx] at hxb
      rintro rfl
      exact rowWithKey_none_iff.mp (hkey a hxb) r hr hra

/-- A sequence value drawn and not used: `nextval` is not undone by a conflict. -/
def skipId (t : Jobs) : Jobs :=
  { t with nextId := t.nextId + 1, idsLt := fun r hr ↦ Nat.lt_succ_of_lt (t.idsLt r hr) }

/-- Nor are those undone that a statement has drawn before it fails. -/
def skipIds (t : Jobs) (n : Nat) : Jobs :=
  { t with nextId := t.nextId + n, idsLt := fun r hr ↦ Nat.lt_add_right n (t.idsLt r hr) }

section Lookup

variable (t : Jobs) (id : Nat)

@[simp] theorem row_update {p : Job → Bool} {s : SetClause} :
    (t.update p s).row id = (t.row id).map fun r ↦ if p r then s.set r else r :=
  rowAt_updateRows (fun r _ ↦ s.keepsId r) t.rows id

@[simp] theorem row_delete {p : Job → Bool} :
    (t.delete p).row id = (t.row id).filter fun r ↦ !p r :=
  rowAt_filter t.idsNodup _ id

@[simp] theorem row_append {task args key now hkey} :
    (t.append task args key now hkey).row id =
      if t.nextId = id then some (Job.insert t.nextId task args key now) else t.row id := by
  refine rowAt_append_single (fun h ↦ ?_) id
  obtain ⟨r, hr, he⟩ := List.mem_map.mp h
  exact absurd he (t.idsLt r hr).ne

@[simp] theorem row_skipId : t.skipId.row id = t.row id := rfl

@[simp] theorem row_skipIds {n : Nat} : (t.skipIds n).row id = t.row id := rfl

end Lookup

end Jobs

end DurableQueue
