import DurableQueue.Jobs.Calls

/-!
# Enqueueing a batch

`enqueue_many` is one statement where a caller could call `enqueue` in a loop.  The statement may
not affect a row twice, which the loop may, so the two part where a key is repeated in the batch.
-/

open Reasoning

namespace DurableQueue

namespace Jobs

/-- `[enqueue(conn, task, a, idempotency_key=k) for a, k in items]`, in one transaction. -/
def enqueueEach (task : String) (now : Int) :
    Jobs → List (Json × Option String) → Jobs × List Nat
  | t, [] => (t, [])
  | t, (args, key) :: rest =>
      let (u, id) := t.enqueue task args key now
      let (v, ids) := enqueueEach task now u rest
      (v, id :: ids)

/-- The batch leaves the loop's table and returns the loop's ids, up to how new rows are numbered.
The loop itself always succeeds. -/
def BatchIsLoop (t : Jobs) (task : String) (argsList : List Json) (keys : List (Option String))
    (now : Int) : Prop :=
  ∃ u ids, t.enqueueMany task argsList (some keys) now = some (u, ids) ∧
    ∃ renumber : Nat → Nat, Function.Injective renumber ∧ (∀ id < t.nextId, renumber id = id) ∧
      u.rows.map (fun r ↦ { r with id := renumber r.id }) =
        (enqueueEach task now t (argsList.zip keys)).1.rows ∧
      ids.map renumber = (enqueueEach task now t (argsList.zip keys)).2

variable {t : Jobs} {task : String} {args : Json} {key : String} {now : Int}

/-! ## The three cases of `enqueue` -/

theorem rows_enqueue_none (t : Jobs) (task : String) (args : Json) (now : Int) :
    (t.enqueue task args none now).1.rows = t.rows ++ [Job.insert t.nextId task args none now] ∧
      (t.enqueue task args none now).2 = t.nextId := ⟨rfl, rfl⟩

theorem rows_enqueue_new (task : String) (args : Json) (now : Int)
    (hkey : t.rowWithKey key = none) :
    (t.enqueue task args (some key) now).1.rows =
        t.rows ++ [Job.insert t.nextId task args (some key) now] ∧
      (t.enqueue task args (some key) now).2 = t.nextId := by
  unfold enqueue
  simp only
  split
  · exact ⟨rfl, rfl⟩
  · rename_i r hr
    exact absurd (hr.symm.trans hkey) (Option.some_ne_none r)

theorem rows_enqueue_conflict {r : Job} (task : String) (args : Json) (now : Int)
    (hkey : t.rowWithKey key = some r) :
    (t.enqueue task args (some key) now).1.rows = t.rows ∧
      (t.enqueue task args (some key) now).2 = r.id := by
  unfold enqueue
  simp only
  split
  · rename_i hnone
    exact absurd (hkey.symm.trans hnone) (Option.some_ne_none r)
  · rename_i r' hr'
    refine ⟨?_, by rw [Option.some.inj (hr'.symm.trans hkey)]⟩
    -- the UPDATE writes the key that is there
    change updateRows _ _ t.rows = t.rows
    unfold updateRows
    simp only [onConflict_apply, ite_self, List.map_id']

/-! ## Keys that the statement has come across -/

/-- The rows that the statement has touched are those with a key among `seen`, and some with
none. -/
def Touches (t : Jobs) (touched : List Nat) (seen : List String) : Prop :=
  ∀ k, (∃ r ∈ t.rows, r.idempotencyKey = some k ∧ r.id ∈ touched) ↔ k ∈ seen

-- A row that is inserted is touched.
theorem Touches.insert {u : Jobs} {touched : List Nat} {seen : List String} {k : Option String}
    (h : t.Touches touched seen)
    (hu : u.rows = t.rows ++ [Job.insert t.nextId task args k now]) :
    u.Touches (t.nextId :: touched) (k.toList ++ seen) := by
  intro k'
  have hold {r : Job} (hr : r ∈ t.rows) : r.id ∈ t.nextId :: touched ↔ r.id ∈ touched := by
    rw [List.mem_cons]
    exact or_iff_right (t.idsLt r hr).ne
  rw [List.mem_append, ← h k', hu]
  constructor
  · rintro ⟨r, hr, hrk, hrt⟩
    rcases List.mem_append.mp hr with hr | hr
    · exact Or.inr ⟨r, hr, hrk, (hold hr).mp hrt⟩
    · left
      rw [List.mem_singleton.mp hr] at hrk
      rw [show k = some k' from hrk]
      exact List.mem_singleton_self k'
  · rintro (hk | ⟨r, hr, hrk, hrt⟩)
    · refine ⟨Job.insert t.nextId task args k now, by simp, ?_, List.mem_cons_self⟩
      exact Option.mem_toList.mp hk
    · exact ⟨r, List.mem_append_left _ hr, hrk, (hold hr).mpr hrt⟩

-- And so is the row that has the key already.
theorem Touches.conflict {u : Jobs} {touched : List Nat} {seen : List String} {r : Job}
    (h : t.Touches touched seen) (hkey : t.rowWithKey key = some r) (hu : u.rows = t.rows) :
    u.Touches (r.id :: touched) (key :: seen) := by
  intro k'
  obtain ⟨hr, hrk⟩ := rowWithKey_some hkey
  rw [List.mem_cons, ← h k', hu]
  constructor
  · rintro ⟨x, hx, hxk, hxt⟩
    rcases List.mem_cons.mp hxt with hid | hxt
    · left
      have hrow := row_of_mem hx
      rw [hid, row_of_mem hr, Option.some.injEq] at hrow
      rw [← hrow, hrk] at hxk
      exact (Option.some.inj hxk).symm
    · exact Or.inr ⟨x, hx, hxk, hxt⟩
  · rintro (rfl | ⟨x, hx, hxk, hxt⟩)
    · exact ⟨r, hr, hrk, List.mem_cons_self⟩
    · exact ⟨x, hx, hxk, List.mem_cons_of_mem _ hxt⟩

/-- No key of the batch has come up before, or comes up again. -/
def NewKeys (seen : List String) (items : List (Json × Option String)) : Prop :=
  (items.filterMap Prod.snd).Nodup ∧ ∀ k ∈ items.filterMap Prod.snd, k ∉ seen

theorem newKeys_none {seen : List String} {rest : List (Json × Option String)} :
    NewKeys seen ((args, none) :: rest) ↔ NewKeys seen rest := Iff.rfl

theorem newKeys_some {seen : List String} {rest : List (Json × Option String)} :
    NewKeys seen ((args, some key) :: rest) ↔ key ∉ seen ∧ NewKeys (key :: seen) rest := by
  have hcons : ((args, some key) :: rest).filterMap Prod.snd = key :: rest.filterMap Prod.snd := rfl
  unfold NewKeys
  rw [hcons, List.nodup_cons]
  constructor
  · rintro ⟨⟨hnew, hnodup⟩, hseen⟩
    refine ⟨hseen key List.mem_cons_self, hnodup, fun k hk hmem ↦ ?_⟩
    rcases List.mem_cons.mp hmem with rfl | hmem
    · exact hnew hk
    · exact hseen k (List.mem_cons_of_mem _ hk) hmem
  · rintro ⟨hkey, hnodup, hseen⟩
    refine ⟨⟨fun hk ↦ hseen key hk List.mem_cons_self, hnodup⟩, fun k hk hmem ↦ ?_⟩
    rcases List.mem_cons.mp hk with rfl | hk
    · exact hkey hmem
    · exact hseen k hk (List.mem_cons_of_mem _ hmem)

-- A row that the statement may affect is handled as `enqueue` handles it.
theorem enqueueRows_cons {touched : List Nat} {k : Option String}
    {rest : List (Json × Option String)}
    (hfree : (k.bind t.rowWithKey).any (decide <| ·.id ∈ touched) = false)
    (hrest : enqueueRows task now (t.enqueue task args k now).1
      ((t.enqueue task args k now).2 :: touched) rest =
        some (enqueueEach task now (t.enqueue task args k now).1 rest)) :
    enqueueRows task now t touched ((args, k) :: rest) =
      some (enqueueEach task now t ((args, k) :: rest)) := by
  rw [enqueueRows, if_neg (by rw [hfree]; exact Bool.false_ne_true)]
  simp only [hrest, Option.map_some]
  rfl

theorem enqueueRows_cons_none {touched : List Nat} {k : Option String}
    {rest : List (Json × Option String)}
    (hrest : enqueueRows task now (t.enqueue task args k now).1
      ((t.enqueue task args k now).2 :: touched) rest = none) :
    enqueueRows task now t touched ((args, k) :: rest) = none := by
  rw [enqueueRows]
  simp only [hrest, Option.map_none, ite_self]

/-- The statement does what the loop does if no key comes up again, and fails otherwise. -/
theorem enqueueRows_spec {touched : List Nat} {seen : List String} (task : String) (now : Int)
    (items : List (Json × Option String)) (h : t.Touches touched seen) :
    (NewKeys seen items →
      enqueueRows task now t touched items = some (enqueueEach task now t items)) ∧
    (¬ NewKeys seen items → enqueueRows task now t touched items = none) := by
  induction items generalizing t touched seen with
  | nil => exact ⟨fun _ ↦ rfl, fun hnot ↦ absurd ⟨List.nodup_nil, by simp⟩ hnot⟩
  | cons item rest ih =>
      obtain ⟨args, key⟩ := item
      cases key with
      | none =>
          have hnext := ih (h.insert (rows_enqueue_none t task args now).1)
          rw [newKeys_none]
          exact ⟨fun hnew ↦ enqueueRows_cons rfl (hnext.1 hnew),
            fun hnot ↦ enqueueRows_cons_none (hnext.2 hnot)⟩
      | some k =>
          rw [newKeys_some]
          cases hk : t.rowWithKey k with
          | none =>
              obtain ⟨hrows, hid⟩ := rows_enqueue_new task args now hk
              have hnext := ih (h.insert hrows)
              rw [← hid] at hnext
              -- a key without a row has not come up
              have hseen : k ∉ seen := by
                intro hmem
                obtain ⟨r, hr, hrk, -⟩ := (h k).mpr hmem
                exact rowWithKey_none_iff.mp hk r hr hrk
              refine ⟨fun hnew ↦ enqueueRows_cons ?_ (hnext.1 hnew.2),
                fun hnot ↦ enqueueRows_cons_none (hnext.2 fun hnew ↦ hnot ⟨hseen, hnew⟩)⟩
              rw [Option.bind_some, hk, Option.any_none]
          | some r =>
              obtain ⟨hrows, hid⟩ := rows_enqueue_conflict task args now hk
              have hnext := ih (h.conflict hk hrows)
              rw [← hid] at hnext
              obtain ⟨hr, hrk⟩ := rowWithKey_some hk
              by_cases htouched : r.id ∈ touched
              · -- the second time a row is affected
                refine ⟨fun hnew ↦ absurd ((h k).mp ⟨r, hr, hrk, htouched⟩) hnew.1, fun _ ↦ ?_⟩
                rw [enqueueRows, if_pos]
                rw [Option.bind_some, hk, Option.any_some, decide_eq_true htouched]
              · have hseen : k ∉ seen := by
                  intro hmem
                  obtain ⟨x, hx, hxk, hxt⟩ := (h k).mpr hmem
                  rw [eq_of_key hr hx hrk hxk] at htouched
                  exact htouched hxt
                refine ⟨fun hnew ↦ enqueueRows_cons ?_ (hnext.1 hnew.2),
                  fun hnot ↦ enqueueRows_cons_none (hnext.2 fun hnew ↦ hnot ⟨hseen, hnew⟩)⟩
                rw [Option.bind_some, hk, Option.any_some, decide_eq_false htouched]

theorem touches_nil (t : Jobs) : t.Touches [] [] := by
  intro k
  simp only [List.not_mem_nil, and_false, exists_false]

theorem filterMap_zip {α β : Type*} {l : List α} {m : List (Option β)}
    (hlen : m.length = l.length) : (l.zip m).filterMap Prod.snd = m.filterMap fun k ↦ k := by
  have hsnd : ((l.zip m).map Prod.snd).filterMap (fun k ↦ k) = (l.zip m).filterMap Prod.snd :=
    List.filterMap_map
  rw [← hsnd, List.map_snd_zip hlen.le]

-- What `enqueue_many` comes to for a list of keys as long as that of the args.
theorem enqueueMany_eq {argsList : List Json} {keys : List (Option String)} (task : String)
    (now : Int) (hlen : keys.length = argsList.length) :
    t.enqueueMany task argsList (some keys) now =
      enqueueRows task now t [] (argsList.zip keys) := by
  unfold enqueueMany
  by_cases hnil : argsList = []
  · rw [if_pos hnil, hnil, List.zip_nil_left]
    rfl
  · rw [if_neg hnil]
    simp only [Option.getD_some]
    rw [if_neg (by omega), hlen, Nat.sub_self, List.replicate_zero, List.append_nil]

/-- `enqueue_many` does what a loop of `enqueue` does exactly if no key is repeated in the batch;
whether keys match rows that are there makes no difference. -/
theorem enqueueMany_is_loop_iff (t : Jobs) (task : String) (argsList : List Json)
    (keys : List (Option String)) (now : Int) (hlen : keys.length = argsList.length) :
    t.BatchIsLoop task argsList keys now ↔ (keys.filterMap fun k ↦ k).Nodup := by
  have hspec := enqueueRows_spec task now (argsList.zip keys) (touches_nil t)
  have hnew : NewKeys [] (argsList.zip keys) ↔ (keys.filterMap fun k ↦ k).Nodup := by
    unfold NewKeys
    rw [filterMap_zip hlen]
    exact and_iff_left fun k _ ↦ List.not_mem_nil
  rw [← hnew]
  constructor
  · rintro ⟨u, ids, hmany, -⟩
    by_contra hnot
    rw [enqueueMany_eq task now hlen, hspec.2 hnot] at hmany
    cases hmany
  · intro hkeys
    refine ⟨_, _, (enqueueMany_eq task now hlen).trans (hspec.1 hkeys), id, Function.injective_id,
      fun _ _ ↦ rfl, ?_, List.map_id _⟩
    exact List.map_id _

/-- One job, enqueued under the key `k`. -/
def oneKeyed : Jobs := (Jobs.empty.enqueue "t" "{}" (some "k") 0).1

/-- One key matches a row, one is new, one is NULL. -/
theorem enqueueMany_is_loop_mixed :
    oneKeyed.BatchIsLoop "t" ["a", "b", "c"] [some "k", none, some "l"] 1 :=
  (enqueueMany_is_loop_iff oneKeyed "t" ["a", "b", "c"] [some "k", none, some "l"] 1 rfl).mpr
    (by decide)

/-- The loop returns one job for both items; the batch raises. -/
theorem enqueueMany_not_loop :
    ¬ ∀ (t : Jobs) (task : String) (argsList : List Json) (keys : List (Option String)) (now : Int),
      keys.length = argsList.length → t.BatchIsLoop task argsList keys now := by
  intro h
  obtain ⟨u, ids, hmany, -⟩ := h .empty "t" ["a", "b"] [some "k", some "k"] 0 rfl
  have hnone : Jobs.empty.enqueueMany "t" ["a", "b"] (some [some "k", some "k"]) 0 = none := by
    decide
  rw [hnone] at hmany
  cases hmany

end Jobs

end DurableQueue
