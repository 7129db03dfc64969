import DurableQueue.Jobs.Retention
import DurableQueue.Jobs.Uncommitted

/-!
# Enqueueing in the caller's transaction

`enqueue` commits nothing: its row belongs to a transaction of the caller, whose own writes it goes
in with.  Any number of such transactions are open at a time.  A row that is not committed is seen
by nobody else, but the unique index has it, and a row that has been met under its key stays locked
until its transaction ends.
-/

open Reasoning

namespace DurableQueue

/-! ## The callers' transactions -/

/-- The parameters of a row of `ENQUEUE_SQL`, and the id that `nextval` has drawn for it. -/
structure Request where
  task : String
  args : Json
  key : Option String
  drawn : Nat

/-- `began` is what `now()` is throughout a transaction, `drawn` the id of a row that is about to be
inserted, and `answers` what has been enqueued so far, each with the id that it returned. -/
structure CallerTransaction where
  began : Int
  drawn : Option Nat
  answers : List (Request × Nat)

/-- All the rows there are, the open transaction that each uncommitted row belongs to, and the one
that has each row's lock for having met it under its key. -/
structure Callers where
  heap : Jobs
  owner : Nat → Option Nat
  locks : Nat → Option Nat
  opened : Nat → Option CallerTransaction

inductive CallerAct where
  | begin (n : Nat) (now : Int)
  | draw (n : Nat)
  | enqueue (n : Nat) (task : String) (args : Json) (key : Option String)
  | commit (n : Nat)
  | rollback (n : Nat)
  | call (c : Call)

def CallerTransaction.answer (x : CallerTransaction) (q : Request) (id : Nat) :
    CallerTransaction :=
  { x with drawn := none, answers := x.answers ++ [(q, id)] }

namespace Callers

def start (t : Jobs) : Callers := ⟨t, fun _ ↦ none, fun _ ↦ none, fun _ ↦ none⟩

def unseen (s : Callers) (id : Nat) : Bool := (s.owner id).isSome

/-- The table as everybody else sees it. -/
def committed (s : Callers) : Jobs := s.heap.without s.unseen

def setTransaction (s : Callers) (n : Nat) (x : Option CallerTransaction) : Callers :=
  { s with opened := Function.update s.opened n x }

/-- What the transaction has is its own no more. -/
def release (s : Callers) (n : Nat) : Callers :=
  { s with
    owner := fun id ↦ if s.owner id = some n then none else s.owner id
    locks := fun id ↦ if s.locks id = some n then none else s.locks id
    opened := Function.update s.opened n none }

end Callers

open Callers

/-- A row that is met under its key may be the transaction's own, or a committed one that nobody
else has locked; the statement waits for any other.  A call passes over what it does not see, and
skips what is locked or waits for it. -/
inductive CallerStep : Callers → CallerAct → Callers → Prop where
  | begin {s : Callers} {n : Nat} {now : Int} (hx : s.opened n = none) :
      CallerStep s (.begin n now) (s.setTransaction n (some ⟨now, none, []⟩))
  | draw {s : Callers} {n : Nat} {x : CallerTransaction} (hx : s.opened n = some x)
      (hdrawn : x.drawn = none) :
      CallerStep s (.draw n)
        ({ s with heap := s.heap.skipId }.setTransaction n
          (some { x with drawn := some s.heap.nextId }))
  | inserted {s : Callers} {n id : Nat} {x : CallerTransaction} {u : Jobs} {task : String}
      {args : Json} {key : Option String} (hx : s.opened n = some x) (hdrawn : x.drawn = some id)
      (hfree : key.bind s.heap.rowWithKey = none)
      (hrun : s.heap.enqueueAs id task args key x.began = some (u, id)) :
      CallerStep s (.enqueue n task args key)
        ({ s with heap := u, owner := Function.update s.owner id (some n) }.setTransaction n
          (some (x.answer ⟨task, args, key, id⟩ id)))
  | met {s : Callers} {n id : Nat} {x : CallerTransaction} {r : Job} {u : Jobs} {task : String}
      {args : Json} {key : Option String} (hx : s.opened n = some x) (hdrawn : x.drawn = some id)
      (hkey : key.bind s.heap.rowWithKey = some r)
      (howner : s.owner r.id = none ∨ s.owner r.id = some n)
      (hlocks : s.locks r.id = none ∨ s.locks r.id = some n)
      (hrun : s.heap.enqueueAs id task args key x.began = some (u, r.id)) :
      CallerStep s (.enqueue n task args key)
        ({ s with heap := u, locks := Function.update s.locks r.id (some n) }.setTransaction n
          (some (x.answer ⟨task, args, key, id⟩ r.id)))
  | commit {s : Callers} {n : Nat} {x : CallerTransaction} (hx : s.opened n = some x) :
      CallerStep s (.commit n) (s.release n)
  | rollback {s : Callers} {n : Nat} {x : CallerTransaction} (hx : s.opened n = some x) :
      CallerStep s (.rollback n)
        ({ s with heap := s.heap.without fun id ↦ decide (s.owner id = some n) }.release n)
  | call {s : Callers} {c : Call} (hop : c.op.enqueues = false)
      (hunseen : ∀ id, s.unseen id = true → c.locked id = true)
      (hlocked : ∀ id, (s.locks id).isSome = true →
        if c.op.skipsLocked then c.locked id = true
        else (c.run s.heap).row id = s.heap.row id) :
      CallerStep s (.call c) { s with heap := c.run s.heap }

def callers : System Callers CallerAct where
  init s := ∃ t, s = .start t
  step := CallerStep

/-! ## One transaction after the other -/

/-- The enqueues of a transaction one after the other, and the ids that they return. -/
def Jobs.replay (began : Int) : Jobs → List Request → Option (Jobs × List Nat)
  | t, [] => some (t, [])
  | t, q :: qs =>
      (t.enqueueAs q.drawn q.task q.args q.key began).bind fun (u, id) ↦
        (replay began u qs).map fun (v, ids) ↦ (v, id :: ids)

inductive SerialAct where
  | call (c : Call)
  | draw
  | transaction (began : Int) (answers : List (Request × Nat))

/-- The order of the rows apart, a transaction enqueues all of its rows when it commits. -/
inductive SerialStep : Jobs → SerialAct → Jobs → Prop where
  | call {t : Jobs} {c : Call} : SerialStep t (.call c) (c.run t)
  | draw {t : Jobs} : SerialStep t .draw t.skipId
  | transaction {t u v : Jobs} {began : Int} {answers : List (Request × Nat)}
      (hrun : t.replay began (answers.map Prod.fst) = some (v, answers.map Prod.snd))
      (hrows : ∀ id, u.row id = v.row id) (hnext : u.nextId = v.nextId) :
      SerialStep t (.transaction began answers) u

def serialCallers : System Jobs SerialAct where
  init _ := True
  step := SerialStep

/-- What a step shows of the committed table: a transaction shows when it commits, and the sequence
is not part of it. -/
def Callers.shows (s : Callers) : CallerAct → Callers → List SerialAct
  | .draw _, _ => [.draw]
  | .commit n, _ => (s.opened n).elim [] fun x ↦ [.transaction x.began x.answers]
  | .call c, _ => [.call c]
  | _, _ => []

/-! ## What an open transaction has been told -/

/-- The answers that the transaction `n` has got: each is the id of a row that it has inserted, or
of one that has the key and that it has locked or inserted before. -/
inductive Answered (s : Callers) (n : Nat) (began : Int) : List (Request × Nat) → Prop where
  | nil : Answered s n began []
  | new {l : List (Request × Nat)} {q : Request} (h : Answered s n began l)
      (hrow : s.heap.row q.drawn = some (Job.insert q.drawn q.task q.args q.key began))
      (howner : s.owner q.drawn = some n) (hfresh : q.drawn ∉ l.map Prod.snd) :
      Answered s n began (l ++ [(q, q.drawn)])
  | met {l : List (Request × Nat)} {q : Request} {k : String} {id : Nat} {r : Job}
      (h : Answered s n began l) (hkey : q.key = some k) (hrow : s.heap.row id = some r)
      (hr : r.idempotencyKey = some k)
      (hmine : s.owner id = none ∧ s.locks id = some n ∨
        s.owner id = some n ∧ id ∈ l.map Prod.snd) :
      Answered s n began (l ++ [(q, id)])

namespace Answered

variable {s t : Callers} {n : Nat} {began : Int} {l : List (Request × Nat)} {id : Nat}

theorem row (h : Answered s n began l) (hid : id ∈ l.map Prod.snd) :
    ∃ r, s.heap.row id = some r := by
  induction h with
  | nil => cases hid
  | new h hrow howner hfresh ih =>
      rw [List.map_append, List.mem_append] at hid
      rcases hid with hid | hid
      · exact ih hid
      · obtain rfl := List.mem_singleton.mp hid
        exact ⟨_, hrow⟩
  | met h hkey hrow hr hmine ih =>
      rw [List.map_append, List.mem_append] at hid
      rcases hid with hid | hid
      · exact ih hid
      · obtain rfl := List.mem_singleton.mp hid
        exact ⟨_, hrow⟩

theorem told (h : Answered s n began l) {q : Request} (hmem : (q, id) ∈ l) :
    ∃ r, s.heap.row id = some r ∧ (∀ k, q.key = some k → r.idempotencyKey = some k) ∧
      (s.owner id = none ∨ s.owner id = some n) := by
  induction h with
  | nil => cases hmem
  | new h hrow howner hfresh ih =>
      rcases List.mem_append.mp hmem with hmem | hmem
      · exact ih hmem
      · cases List.mem_singleton.mp hmem
        exact ⟨_, hrow, fun k hk ↦ hk, Or.inr howner⟩
  | met h hkey hrow hr hmine ih =>
      rcases List.mem_append.mp hmem with hmem | hmem
      · exact ih hmem
      · cases List.mem_singleton.mp hmem
        refine ⟨_, hrow, fun k hk ↦ ?_, hmine.imp And.left And.left⟩
        rw [hr, ← hkey, hk]

-- A row of its own is as it has been inserted.
theorem own_row (h : Answered s n began l) (hid : id ∈ l.map Prod.snd)
    (howner : s.owner id = some n) :
    ∃ task args key, s.heap.row id = some (Job.insert id task args key began) := by
  induction h with
  | nil => cases hid
  | new h hrow _ hfresh ih =>
      rw [List.map_append, List.mem_append] at hid
      rcases hid with hid | hid
      · exact ih hid
      · obtain rfl := List.mem_singleton.mp hid
        exact ⟨_, _, _, hrow⟩
  | met h hkey hrow hr hmine ih =>
      rw [List.map_append, List.mem_append] at hid
      rcases hid with hid | hid
      · exact ih hid
      · obtain rfl := List.mem_singleton.mp hid
        rcases hmine with ⟨hnone, -⟩ | ⟨-, hmem⟩
        · cases hnone.symm.trans howner
        · exact ih hmem

-- Whatever leaves its rows, its locks and the rows that it has locked alone.
theorem frame (h : Answered s n began l)
    (hsame : ∀ id r, s.heap.row id = some r →
      s.owner id = some n ∨ s.owner id = none ∧ s.locks id = some n →
      t.heap.row id = some r ∧ t.owner id = s.owner id ∧
        (s.owner id = none → t.locks id = some n)) : Answered t n began l := by
  induction h with
  | nil => exact .nil
  | new h hrow howner hfresh ih =>
      obtain ⟨hrow', howner', -⟩ := hsame _ _ hrow (Or.inl howner)
      exact .new ih hrow' (howner'.trans howner) hfresh
  | met h hkey hrow hr hmine ih =>
      obtain ⟨hrow', howner', hlocks'⟩ := hsame _ _ hrow (hmine.symm.imp_left And.left)
      refine .met ih hkey hrow' hr ?_
      rcases hmine with ⟨hnone, hlock⟩ | ⟨hown, hmem⟩
      · exact Or.inl ⟨howner'.trans hnone, hlocks' hnone⟩
      · exact Or.inr ⟨howner'.trans hown, hmem⟩

end Answered

theorem Jobs.replay_concat {t : Jobs} {began : Int} {qs : List Request} {q : Request} :
    t.replay began (qs ++ [q]) = (t.replay began qs).bind fun (u, ids) ↦
      (u.enqueueAs q.drawn q.task q.args q.key began).map fun (v, id) ↦ (v, ids ++ [id]) := by
  induction qs generalizing t with
  | nil =>
      simp only [List.nil_append, replay, Option.bind_some, List.nil_append]
      cases t.enqueueAs q.drawn q.task q.args q.key began <;> rfl
  | cons q' qs ih =>
      simp only [List.cons_append, replay, ih]
      cases t.enqueueAs q'.drawn q'.task q'.args q'.key began with
      | none => rfl
      | some res =>
          simp only [Option.bind_some]
          cases res.1.replay began qs with
          | none => rfl
          | some res' =>
              simp only [Option.bind_some, Option.map_some]
              cases res'.1.enqueueAs q.drawn q.task q.args q.key began <;> rfl

theorem Callers.row_committed (s : Callers) (id : Nat) :
    s.committed.row id = if (s.owner id).isSome then none else s.heap.row id :=
  s.heap.row_without s.unseen id

-- By induction on the answers: so far the replay has the committed rows and those inserted so far.
theorem Answered.replay {s : Callers} {n : Nat} {began : Int} {l : List (Request × Nat)}
    (h : Answered s n began l) :
    ∃ v, s.committed.replay began (l.map Prod.fst) = some (v, l.map Prod.snd) ∧
      v.nextId = s.heap.nextId ∧
      ∀ id, v.row id = if id ∈ l.map Prod.snd ∧ s.owner id = some n then s.heap.row id
        else s.committed.row id := by
  induction h with
  | nil => exact ⟨s.committed, rfl, rfl, fun id ↦ (if_neg fun h ↦ List.not_mem_nil h.1).symm⟩
  | @new l q h hrow howner hfresh ih =>
      obtain ⟨v, hrun, hnext, hrows⟩ := ih
      have hheap {id : Nat} {r : Job} (hr : v.row id = some r) : s.heap.row id = some r := by
        rw [hrows id] at hr
        split at hr
        · exact hr
        · rw [row_committed] at hr
          split at hr
          · cases hr
          · exact hr
      have hfree : v.row q.drawn = none ∧ q.drawn < v.nextId := by
        refine ⟨?_, hnext ▸ Jobs.row_lt hrow⟩
        rw [hrows, if_neg fun hmem ↦ hfresh hmem.1, row_committed, howner]
        rfl
      have hkey : q.key.bind v.rowWithKey = none := by
        cases hk : q.key with
        | none => rfl
        | some k =>
            refine Jobs.rowWithKey_none_iff.mpr fun r hr hrk ↦ ?_
            -- the row with the key is the one that has been inserted, and the replay has it not yet
            have hsame := Jobs.eq_of_key (Jobs.row_mem (hheap (Jobs.row_of_mem hr)))
              (Jobs.row_mem hrow) hrk hk
            have hid : r.id = q.drawn := congrArg Job.id hsame
            cases (hid ▸ Jobs.row_of_mem hr).symm.trans hfree.1
      have hinsert : v.enqueueAs q.drawn q.task q.args q.key began =
          some (v.appendAs q.drawn q.task q.args q.key began hfree hkey, q.drawn) :=
        Jobs.enqueueAs_fresh hkey hfree
      refine ⟨v.appendAs q.drawn q.task q.args q.key began hfree hkey, ?_, hnext, fun id ↦ ?_⟩
      · rw [List.map_append, List.map_append, List.map_singleton, List.map_singleton,
          Jobs.replay_concat, hrun, Option.bind_some]
        dsimp only
        rw [hinsert, Option.map_some]
      · rw [Jobs.row_appendAs, List.map_append, List.map_singleton]
        by_cases hid : q.drawn = id
        · subst hid
          rw [if_pos rfl, if_pos, hrow]
          exact ⟨List.mem_append_right _ (List.mem_singleton_self _), howner⟩
        · rw [if_neg hid, hrows id]
          have hmem : id ∈ l.map Prod.snd ++ [q.drawn] ↔ id ∈ l.map Prod.snd := by
            rw [List.mem_append, List.mem_singleton, or_iff_left (Ne.symm hid)]
          simp only [hmem]
  | @met l q k id r h hkey hrow hr hmine ih =>
      obtain ⟨v, hrun, hnext, hrows⟩ := ih
      have hmet : v.row id = some r := by
        rw [hrows id]
        rcases hmine with ⟨hnone, -⟩ | hown
        · rw [row_committed, hnone, hrow]
          exact ite_self _
        · rw [if_pos hown.symm, hrow]
      have hconflict : v.enqueueAs q.drawn q.task q.args (some k) began = some (v, r.id) :=
        Jobs.enqueueAs_conflict (Jobs.rowWithKey_of_row hmet hr)
      refine ⟨v, ?_, hnext, fun id' ↦ ?_⟩
      · rw [List.map_append, List.map_append, List.map_singleton, List.map_singleton,
          Jobs.replay_concat, hrun, Option.bind_some]
        dsimp only
        rw [hkey, hconflict, Option.map_some, Jobs.row_id hmet]
      · rw [hrows id', List.map_append, List.map_singleton]
        by_cases hid : id' = id
        · subst hid
          rcases hmine with ⟨hnone, -⟩ | ⟨hown, hmem⟩
          · simp only [hnone, reduceCtorEq, and_false, if_false]
          · rw [if_pos ⟨hmem, hown⟩, if_pos ⟨List.mem_append_left _ hmem, hown⟩]
        · have hmem : id' ∈ l.map Prod.snd ++ [id] ↔ id' ∈ l.map Prod.snd := by
            rw [List.mem_append, List.mem_singleton, or_iff_left hid]
          simp only [hmem]

/-! ## Every interleaving -/

namespace Callers

variable {s t : Callers} {n : Nat} {a : CallerAct}

structure Inv (s : Callers) : Prop where
  answered : ∀ n x, s.opened n = some x → Answered s n x.began x.answers
  own : ∀ n x id, s.opened n = some x → s.owner id = some n → id ∈ x.answers.map Prod.snd
  opened : ∀ n id, s.owner id = some n → ∃ x, s.opened n = some x
  drawn : ∀ n x id, s.opened n = some x → x.drawn = some id →
    s.heap.row id = none ∧ id < s.heap.nextId ∧
      ∀ m y, s.opened m = some y → y.drawn = some id → m = n

theorem inv_start (t : Jobs) : (start t).Inv := ⟨nofun, nofun, nofun, nofun⟩

-- A row that is not committed is pending, and nobody has claimed it.
theorem Inv.unclaimed (h : s.Inv) {id : Nat} {r : Job} (howner : s.owner id = some n)
    (hr : s.heap.row id = some r) : r.status = .pending ∧ r.lockedBy = none := by
  obtain ⟨x, hx⟩ := h.opened n id howner
  obtain ⟨task, args, key, hrow⟩ := (h.answered n x hx).own_row (h.own n x id hx howner) howner
  obtain rfl := Option.some.inj (hrow.symm.trans hr)
  exact ⟨rfl, rfl⟩

theorem opened_self (s : Callers) (n : Nat) (x : Option CallerTransaction) :
    (s.setTransaction n x).opened n = x := Function.update_self ..

theorem opened_of_ne {m : Nat} (hm : m ≠ n) (x : Option CallerTransaction) :
    (s.setTransaction n x).opened m = s.opened m := Function.update_of_ne hm ..

theorem setTransaction_cases {x y : Option CallerTransaction} {m : Nat}
    (h : (s.setTransaction n x).opened m = y) : m = n ∧ x = y ∨ m ≠ n ∧ s.opened m = y := by
  by_cases hm : m = n
  · subst hm
    exact Or.inl ⟨rfl, (opened_self ..).symm.trans h⟩
  · exact Or.inr ⟨hm, (opened_of_ne hm x).symm.trans h⟩

-- A step of the transaction `n` that has got no answer.
theorem Inv.set {x : CallerTransaction} (h : s.Inv)
    (hanswered : Answered s n x.began x.answers)
    (hown : ∀ id, s.owner id = some n → id ∈ x.answers.map Prod.snd)
    (hdrawn : ∀ id, x.drawn = some id → s.heap.row id = none ∧ id < s.heap.nextId ∧
      ∀ m y, s.opened m = some y → y.drawn = some id → m = n) :
    (s.setTransaction n (some x)).Inv where
  answered m y hy := by
    have hframe {l : List (Request × Nat)} {began : Int} (hl : Answered s m began l) :
        Answered (s.setTransaction n (some x)) m began l :=
      hl.frame fun id r hr hmine ↦ ⟨hr, rfl, fun hnone ↦ by
        rcases hmine with hown | ⟨-, hlock⟩
        · cases hnone.symm.trans hown
        · exact hlock⟩
    rcases setTransaction_cases hy with ⟨rfl, hxy⟩ | ⟨-, hy⟩
    · obtain rfl := Option.some.inj hxy
      exact hframe hanswered
    · exact hframe (h.answered m y hy)
  own m y id hy hid := by
    rcases setTransaction_cases hy with ⟨rfl, hxy⟩ | ⟨-, hy⟩
    · obtain rfl := Option.some.inj hxy
      exact hown id hid
    · exact h.own m y id hy hid
  opened m id hid := by
    by_cases hm : m = n
    · exact ⟨x, by rw [hm, opened_self]⟩
    · obtain ⟨y, hy⟩ := h.opened m id hid
      exact ⟨y, by rw [opened_of_ne hm, hy]⟩
  drawn m y id hy hid := by
    rcases setTransaction_cases hy with ⟨rfl, hxy⟩ | ⟨hm, hold⟩
    · obtain rfl := Option.some.inj hxy
      obtain ⟨hrow, hlt, honly⟩ := hdrawn id hid
      refine ⟨hrow, hlt, fun m' y' hy' hid' ↦ ?_⟩
      rcases setTransaction_cases hy' with ⟨rfl, -⟩ | ⟨-, hy'⟩
      · rfl
      · exact honly m' y' hy' hid'
    · obtain ⟨hrow, hlt, honly⟩ := h.drawn m y id hold hid
      refine ⟨hrow, hlt, fun m' y' hy' hid' ↦ ?_⟩
      rcases setTransaction_cases hy' with ⟨rfl, hxy⟩ | ⟨-, hy'⟩
      · obtain rfl := Option.some.inj hxy
        exact absurd ((hdrawn id hid').2.2 m y hold hid) hm
      · exact honly m' y' hy' hid'

-- What leaves the open transactions as they are, and their rows and locks.
theorem Inv.mono (h : s.Inv) (hopened : ∀ m y, t.opened m = some y → s.opened m = some y)
    (hsame : ∀ m y id r, t.opened m = some y → s.heap.row id = some r →
      s.owner id = some m ∨ s.owner id = none ∧ s.locks id = some m →
      t.heap.row id = some r ∧ t.owner id = s.owner id ∧
        (s.owner id = none → t.locks id = some m))
    (howner : ∀ m id, t.owner id = some m → s.owner id = some m ∧
      ∀ y, s.opened m = some y → t.opened m = some y)
    (hdrawn : ∀ m y id, t.opened m = some y → y.drawn = some id → s.heap.row id = none →
      id < s.heap.nextId → t.heap.row id = none ∧ id < t.heap.nextId) : t.Inv where
  answered m y hy := (h.answered m y (hopened m y hy)).frame fun id r ↦ hsame m y id r hy
  own m y id hy hid := h.own m y id (hopened m y hy) (howner m id hid).1
  opened m id hid := by
    obtain ⟨hold, hstays⟩ := howner m id hid
    obtain ⟨y, hy⟩ := h.opened m id hold
    exact ⟨y, hstays y hy⟩
  drawn m y id hy hid := by
    obtain ⟨hrow, hlt, honly⟩ := h.drawn m y id (hopened m y hy) hid
    obtain ⟨hrow', hlt'⟩ := hdrawn m y id hy hid hrow hlt
    exact ⟨hrow', hlt', fun m' y' hy' ↦ honly m' y' (hopened m' y' hy')⟩

theorem Inv.draw {x : CallerTransaction} (h : s.Inv) (hx : s.opened n = some x) :
    ({ s with heap := s.heap.skipId }.setTransaction n
      (some { x with drawn := some s.heap.nextId })).Inv := by
  have hskip : { s with heap := s.heap.skipId }.Inv := by
    refine h.mono (fun _ _ ↦ id) (fun m y id r _ hr hmine ↦ ⟨hr, rfl, fun hnone ↦ ?_⟩)
      (fun m id hid ↦ ⟨hid, fun _ hlock ↦ hlock⟩) fun m y id _ _ hrow hlt ↦
        ⟨hrow, Nat.lt_succ_of_lt hlt⟩
    rcases hmine with hown | ⟨-, hlock⟩
    · cases hnone.symm.trans hown
    · exact hlock
  refine hskip.set (hskip.answered n x hx) (fun id ↦ h.own n x id hx) fun id hid ↦ ?_
  obtain rfl := Option.some.inj hid
  refine ⟨s.heap.row_nextId, Nat.lt_succ_self _, fun m y hy hdrawn ↦ ?_⟩
  -- what has been drawn before is less
  exact absurd (h.drawn m y _ hy hdrawn).2.1 (Nat.lt_irrefl _)

theorem Inv.inserted {x : CallerTransaction} {id : Nat} {task : String} {args : Json}
    {key : Option String} {hid hkey} (h : s.Inv) (hx : s.opened n = some x)
    (hdrawn : x.drawn = some id) :
    ({ s with
        heap := s.heap.appendAs id task args key x.began hid hkey
        owner := Function.update s.owner id (some n) }.setTransaction n
      (some (x.answer ⟨task, args, key, id⟩ id))).Inv := by
  have hrow {id' : Nat} {r : Job} (hr : s.heap.row id' = some r) :
      id' ≠ id ∧ (s.heap.appendAs id task args key x.began hid hkey).row id' = some r := by
    have hne : id ≠ id' := by
      rintro rfl
      cases hid.1.symm.trans hr
    rw [Jobs.row_appendAs, if_neg hne]
    exact ⟨hne.symm, hr⟩
  have hframe {m : Nat} {began : Int} {l : List (Request × Nat)} (hl : Answered s m began l)
      {o : Nat → Option CallerTransaction} :
      Answered ⟨s.heap.appendAs id task args key x.began hid hkey,
        Function.update s.owner id (some n), s.locks, o⟩ m began l := by
    refine hl.frame fun id' r hr hmine ↦ ?_
    obtain ⟨hne, hr'⟩ := hrow hr
    refine ⟨hr', Function.update_of_ne hne .., fun hnone ↦ ?_⟩
    rcases hmine with hown | ⟨-, hlock⟩
    · cases hnone.symm.trans hown
    · exact hlock
  refine ⟨fun m y hy ↦ ?_, fun m y id' hy howner ↦ ?_, fun m id' howner ↦ ?_,
    fun m y id' hy hid' ↦ ?_⟩
  · rcases setTransaction_cases hy with ⟨rfl, hxy⟩ | ⟨-, hy⟩
    · obtain rfl := Option.some.inj hxy
      have hl := h.answered m x hx
      refine .new (q := ⟨task, args, key, id⟩) (hframe hl) ?_ (Function.update_self ..)
        fun hmem ↦ ?_
      · change (s.heap.appendAs id task args key x.began hid hkey).row id = _
        rw [Jobs.row_appendAs, if_pos rfl]
        rfl
      · obtain ⟨r, hr⟩ := hl.row hmem
        cases hid.1.symm.trans hr
    · exact hframe (h.answered m y hy)
  · change Function.update s.owner id (some n) id' = some m at howner
    by_cases hid' : id' = id
    · rw [hid', Function.update_self] at howner
      obtain rfl := Option.some.inj howner
      rcases setTransaction_cases hy with ⟨-, hxy⟩ | ⟨hm, -⟩
      · obtain rfl := Option.some.inj hxy
        rw [hid', CallerTransaction.answer, List.map_append]
        exact List.mem_append_right _ (List.mem_singleton_self _)
      · exact absurd rfl hm
    · rw [Function.update_of_ne hid'] at howner
      rcases setTransaction_cases hy with ⟨rfl, hxy⟩ | ⟨-, hy⟩
      · obtain rfl := Option.some.inj hxy
        rw [CallerTransaction.answer, List.map_append]
        exact List.mem_append_left _ (h.own m x id' hx howner)
      · exact h.own m y id' hy howner
  · by_cases hm : m = n
    · exact ⟨_, by rw [hm, opened_self]⟩
    · have hne : id' ≠ id := by
        rintro rfl
        exact hm (Option.some.inj (howner.symm.trans (Function.update_self ..)))
      change Function.update s.owner id (some n) id' = some m at howner
      rw [Function.update_of_ne hne] at howner
      obtain ⟨y, hy⟩ := h.opened m id' howner
      exact ⟨y, by rw [opened_of_ne hm, hy]⟩
  · rcases setTransaction_cases hy with ⟨rfl, hxy⟩ | ⟨hm, hy⟩
    · obtain rfl := Option.some.inj hxy
      cases hid'
    · obtain ⟨hnone, hlt, honly⟩ := h.drawn m y id' hy hid'
      refine ⟨?_, hlt, fun m' y' hy' hdrawn' ↦ ?_⟩
      · change (s.heap.appendAs id task args key x.began hid hkey).row id' = none
        rw [Jobs.row_appendAs, if_neg, hnone]
        rintro rfl
        exact hm (honly n x hx hdrawn).symm
      · rcases setTransaction_cases hy' with ⟨rfl, hxy⟩ | ⟨-, hy'⟩
        · obtain rfl := Option.some.inj hxy
          cases hdrawn'
        · exact honly m' y' hy' hdrawn'

theorem Inv.met {x : CallerTransaction} {id : Nat} {task : String} {args : Json} {k : String}
    {r : Job} (h : s.Inv) (hx : s.opened n = some x) (hkey : s.heap.rowWithKey k = some r)
    (howner : s.owner r.id = none ∨ s.owner r.id = some n)
    (hlocks : s.locks r.id = none ∨ s.locks r.id = some n) :
    ({ s with locks := Function.update s.locks r.id (some n) }.setTransaction n
      (some (x.answer ⟨task, args, some k, id⟩ r.id))).Inv := by
  have hlocked : { s with locks := Function.update s.locks r.id (some n) }.Inv := by
    refine h.mono (fun _ _ hrow ↦ hrow) (fun m y id' r' _ hr' hmine ↦ ⟨hr', rfl, fun hnone ↦ ?_⟩)
      (fun m id' hid' ↦ ⟨hid', fun _ hlock ↦ hlock⟩) fun m y id' _ _ hrow hlt ↦ ⟨hrow, hlt⟩
    rcases hmine with hown | ⟨-, hlock⟩
    · cases hnone.symm.trans hown
    · change Function.update s.locks r.id (some n) id' = some m
      by_cases hid' : id' = r.id
      · subst hid'
        rw [Function.update_self]
        exact (hlocks.resolve_left fun hfree ↦ by cases hfree.symm.trans hlock).symm.trans hlock
      · rwa [Function.update_of_ne hid']
  obtain ⟨hmem, hk⟩ := Jobs.rowWithKey_some hkey
  refine hlocked.set (.met (hlocked.answered n x hx) rfl (Jobs.row_of_mem hmem) hk ?_)
    (fun id' hid' ↦ ?_) nofun
  · rcases howner with hnone | hown
    · exact Or.inl ⟨hnone, Function.update_self ..⟩
    · exact Or.inr ⟨hown, h.own n x r.id hx hown⟩
  · rw [CallerTransaction.answer, List.map_append]
    exact List.mem_append_left _ (h.own n x id' hx hid')

-- The others keep what they have when one transaction ends.
theorem Inv.release (h : s.Inv) (n : Nat) (p : Nat → Bool)
    (hp : ∀ id, p id = true → s.owner id = some n) :
    ({ s with heap := s.heap.without p }.release n).Inv := by
  have hopened {m : Nat} {y : CallerTransaction}
      (hy : ({ s with heap := s.heap.without p }.release n).opened m = some y) :
      m ≠ n ∧ s.opened m = some y := by
    rcases setTransaction_cases (s := { s with heap := s.heap.without p }) hy with ⟨-, hxy⟩ | hold
    · cases hxy
    · exact hold
  have howner {m id : Nat} (hm : m ≠ n) (hid : s.owner id = some m) :
      ({ s with heap := s.heap.without p }.release n).owner id = some m := by
    simp only [Callers.release, hid, Option.some.injEq, hm, if_false]
  refine h.mono (fun m y hy ↦ (hopened hy).2) (fun m y id r hy hr hmine ↦ ?_)
    (fun m id hid ↦ ?_) fun m y id hy hdrawn hrow hlt ↦ ⟨?_, hlt⟩
  · have hm := (hopened hy).1
    have hkept : s.owner id ≠ some n := by
      rcases hmine with hown | ⟨hnone, -⟩
      · rw [hown]
        exact fun heq ↦ hm (Option.some.inj heq)
      · rw [hnone]
        nofun
    refine ⟨?_, if_neg hkept, fun hnone ↦ ?_⟩
    · change (s.heap.without p).row id = some r
      rw [Jobs.row_without, if_neg fun hid ↦ hkept (hp id hid), hr]
    · rcases hmine with hown | ⟨-, hlock⟩
      · cases hnone.symm.trans hown
      · simp only [Callers.release, hlock, Option.some.injEq, hm, if_false]
  · change (if s.owner id = some n then none else s.owner id) = some m at hid
    split at hid
    · cases hid
    · rename_i hne
      have hm : m ≠ n := fun heq ↦ hne (heq ▸ hid)
      exact ⟨hid, fun y hy ↦ (opened_of_ne hm none).trans hy⟩
  · change (s.heap.without p).row id = none
    rw [Jobs.row_without, hrow, ite_self]

theorem Inv.call {c : Call} (h : s.Inv)
    (hunseen : ∀ id, s.unseen id = true → c.locked id = true)
    (hlocked : ∀ id, (s.locks id).isSome = true →
      if c.op.skipsLocked then c.locked id = true else (c.run s.heap).row id = s.heap.row id) :
    { s with heap := c.run s.heap }.Inv := by
  refine h.mono (fun _ _ ↦ id) (fun m y id r hy hr hmine ↦ ⟨?_, rfl, fun hnone ↦ ?_⟩)
    (fun m id hid ↦ ⟨hid, fun _ hlock ↦ hlock⟩) fun m y id _ _ hrow hlt ↦ ?_
  · have hchange := c.run_row s.heap id
    rw [hr] at hchange
    rcases hmine with hown | ⟨-, hlock⟩
    · obtain ⟨hs, hw⟩ := h.unclaimed hown hr
      refine hchange.of_unseen hs hw (hunseen _ ?_)
      rw [Jobs.row_id hr, unseen, hown]
      rfl
    · have hwait := hlocked id (by rw [hlock]; rfl)
      split at hwait
      · rename_i hskips
        exact hchange.of_locked hskips (by rwa [Jobs.row_id hr])
      · exact hwait.trans hr
  · rcases hmine with hown | ⟨-, hlock⟩
    · cases hnone.symm.trans hown
    · exact hlock
  · obtain ⟨hlt', hnone⟩ := c.run_of_lt hlt
    exact ⟨hnone hrow, hlt'⟩

theorem Inv.step (h : s.Inv) (ha : CallerStep s a t) : t.Inv := by
  cases ha with
  | begin hx =>
      refine h.set .nil (fun id hid ↦ ?_) nofun
      obtain ⟨y, hy⟩ := h.opened _ id hid
      cases hx.symm.trans hy
  | draw hx hdrawn => exact h.draw hx
  | inserted hx hdrawn hfree hrun =>
      obtain ⟨hnone, hlt, -⟩ := h.drawn _ _ _ hx hdrawn
      obtain ⟨rfl, -⟩ := Prod.mk.inj (Option.some.inj
        ((Jobs.enqueueAs_fresh hfree ⟨hnone, hlt⟩).symm.trans hrun))
      exact h.inserted hx hdrawn
  | @met n id x r u task args key hx hdrawn hkey howner hlocks hrun =>
      obtain ⟨k, rfl, hrow⟩ := Option.bind_eq_some_iff.mp hkey
      obtain ⟨rfl, -⟩ := Prod.mk.inj (Option.some.inj
        ((Jobs.enqueueAs_conflict hrow).symm.trans hrun))
      exact h.met hx hrow howner hlocks
  | @commit n x hx =>
      have hdone := h.release n (fun _ ↦ false) nofun
      rwa [Jobs.without_none] at hdone
  | @rollback n x hx => exact h.release n _ fun id hid ↦ of_decide_eq_true hid
  | call hop hunseen hlocked => exact h.call hunseen hlocked

/-! ## The committed table -/

theorem committed_eq (hheap : s.heap.nextId = t.heap.nextId)
    (hrows : s.heap.rows.filter (fun r ↦ !(s.unseen r.id)) =
      t.heap.rows.filter fun r ↦ !(t.unseen r.id)) : s.committed = t.committed :=
  Jobs.ext hrows hheap

-- What a step does to the committed table, as one transaction after the other would.
theorem Inv.serial (h : s.Inv) (ha : CallerStep s a t) :
    serialCallers.Run s.committed (s.shows a t) t.committed := by
  cases ha with
  | begin hx => exact .nil _
  | draw hx hdrawn => exact .single .draw
  | @inserted n id x u task args key hx hdrawn hfree hrun =>
      obtain ⟨hnone, hlt, -⟩ := h.drawn _ _ _ hx hdrawn
      have hinsert : s.heap.enqueueAs id task args key x.began =
          some (s.heap.appendAs id task args key x.began ⟨hnone, hlt⟩ hfree, id) :=
        Jobs.enqueueAs_fresh hfree ⟨hnone, hlt⟩
      obtain ⟨rfl, -⟩ := Prod.mk.inj (Option.some.inj (hinsert.symm.trans hrun))
      refine System.Run.nil_iff.mpr (committed_eq rfl ?_)
      change _ = (s.heap.rows ++ [Job.insert id task args key x.began]).filter _
      rw [List.filter_append]
      have hnew : (List.filter (fun r : Job ↦ !(Function.update s.owner id (some n) r.id).isSome)
          [Job.insert id task args key x.began]) = [] := by
        rw [List.filter_cons_of_neg, List.filter_nil]
        change ¬ (!(Function.update s.owner id (some n) id).isSome) = true
        rw [Function.update_self]
        exact Bool.false_ne_true
      refine Eq.trans ?_ (congrArg (_ ++ ·) hnew.symm)
      rw [List.append_nil]
      refine List.filter_congr fun r hr ↦ ?_
      have hne : r.id ≠ id := by
        rintro rfl
        cases hnone.symm.trans (Jobs.row_of_mem hr)
      change (!(s.owner r.id).isSome) = !(Function.update s.owner id (some n) r.id).isSome
      rw [Function.update_of_ne hne]
  | @met n id x r u task args key hx hdrawn hkey howner hlocks hrun =>
      obtain ⟨k, rfl, hrow⟩ := Option.bind_eq_some_iff.mp hkey
      obtain ⟨rfl, -⟩ := Prod.mk.inj (Option.some.inj
        ((Jobs.enqueueAs_conflict hrow).symm.trans hrun))
      exact .nil _
  | @commit n x hx =>
      obtain ⟨v, hrun, hnext, hrows⟩ := (h.answered n x hx).replay
      have hshows : s.shows (.commit n) (s.release n) = [.transaction x.began x.answers] := by
        rw [shows, hx]
        rfl
      rw [hshows]
      refine .single (.transaction hrun (fun id ↦ ?_) hnext.symm)
      rw [hrows id, row_committed, row_committed]
      change (if (if s.owner id = some n then none else s.owner id).isSome then none
        else s.heap.row id) = _
      by_cases hid : s.owner id = some n
      · have hmem := h.own n x id hx hid
        simp only [hid, hmem, and_self, if_true, Option.isSome_none, Bool.false_eq_true, if_false]
      · simp only [hid, and_false, if_false]
  | @rollback n x hx =>
      refine System.Run.nil_iff.mpr (committed_eq rfl ?_)
      change _ = ((s.heap.rows.filter _).filter _)
      rw [List.filter_filter]
      refine List.filter_congr fun r hr ↦ ?_
      change (!(s.owner r.id).isSome) =
        (!(if s.owner r.id = some n then none else s.owner r.id).isSome &&
          !decide (s.owner r.id = some n))
      by_cases hid : s.owner r.id = some n
      · rw [if_pos hid, hid]
        simp
      · rw [if_neg hid, decide_eq_false hid, Bool.not_false, Bool.and_true]
  | @call c hop hunseen hlocked =>
      have hsame : (c.run s.heap).without s.unseen = c.run s.committed := by
        refine Call.run_without hop hunseen fun id r hid hr w ↦ ?_
        obtain ⟨n, hown⟩ := Option.isSome_iff_exists.mp hid
        obtain ⟨-, hw⟩ := h.unclaimed hown hr
        rw [Job.heldBy, hw]
        rfl
      have hcall : serialCallers.step s.committed (.call c) (c.run s.committed) := .call
      rw [← hsame] at hcall
      exact .single hcall

theorem inv_of_observed {t : Jobs} {es : List SerialAct}
    (h : callers.Observed shows (.start t) es s) : s.Inv ∧ serialCallers.Run t es s.committed := by
  have hstart : (start t).committed = t := Jobs.without_none t
  obtain ⟨u, hrun, hu, hs⟩ := h.simulated (fun s u ↦ s.Inv ∧ u = s.committed)
    (fun s a s' u ⟨hs, hu⟩ ha ↦ ⟨s'.committed, hu ▸ hs.serial ha, hs.step ha, rfl⟩)
    ⟨inv_start t, hstart.symm⟩
  exact ⟨hu, hs ▸ hrun⟩

end Callers

/-- Transactions that enqueue at the same time, and whatever else happens to the table meanwhile,
come to what they would come to one after the other, each at its commit and with the ids that it has
been given.  Those are the ids of rows that stay, with their keys, until the transaction ends; and a
rollback leaves no trace but ids that are not used. -/
theorem callers_serialized {t : Jobs} {s : Callers} {es : List SerialAct}
    (h : callers.Observed Callers.shows (.start t) es s) :
    serialCallers.Run t es s.committed ∧
    (∀ n x q id, s.opened n = some x → (q, id) ∈ x.answers →
      ∃ r, (∀ k, q.key = some k → r.idempotencyKey = some k) ∧ s.heap.row id = some r ∧
        (s.committed.row id = some r ∨ s.owner id = some n)) ∧
    ∀ n u, CallerStep s (.rollback n) u → u.committed = s.committed := by
  obtain ⟨hinv, hrun⟩ := Callers.inv_of_observed h
  refine ⟨hrun, fun n x q id hx hmem ↦ ?_, fun n u hroll ↦ ?_⟩
  · obtain ⟨r, hrow, hkey, hnone | hown⟩ := (hinv.answered n x hx).told hmem
    · refine ⟨r, hkey, hrow, Or.inl ?_⟩
      rw [Callers.row_committed, hnone, hrow]
      exact if_neg Bool.false_ne_true
    · exact ⟨r, hkey, hrow, Or.inr hown⟩
  · exact (System.Run.nil_iff.mp (hinv.serial hroll)).symm

def overlapping : List SerialAct :=
  [.draw, .draw, .transaction 0 [(⟨"t", "b", none, 2⟩, 2)],
    .transaction 0 [(⟨"t", "a", some "k", 1⟩, 1)], .draw]

-- Two transactions insert a row each, the second commits first, and a third meets the other's row.
theorem overlapping_observed :
    ∃ s es, callers.Observed Callers.shows (.start .empty) es s ∧ es = overlapping ∧
      s.opened 2 = some ⟨5, none, [(⟨"t", "c", some "k", 3⟩, 1)]⟩ ∧ s.owner 1 = none :=
  ⟨_, _, .cons (@CallerStep.begin _ 0 0 rfl) <| .cons (@CallerStep.draw _ 0 _ rfl rfl) <|
    .cons (@CallerStep.inserted _ 0 _ _ _ "t" "a" (some "k") rfl rfl rfl rfl) <|
    .cons (@CallerStep.begin _ 1 0 rfl) <| .cons (@CallerStep.draw _ 1 _ rfl rfl) <|
    .cons (@CallerStep.inserted _ 1 _ _ _ "t" "b" none rfl rfl rfl rfl) <|
    .cons (@CallerStep.commit _ 1 _ rfl) <| .cons (@CallerStep.commit _ 0 _ rfl) <|
    .cons (@CallerStep.begin _ 2 5 rfl) <| .cons (@CallerStep.draw _ 2 _ rfl rfl) <|
    .cons (@CallerStep.met _ 2 _ _ _ _ "t" "c" (some "k") rfl rfl rfl (Or.inl rfl) (Or.inl rfl)
      rfl) <| .nil _, rfl, rfl, rfl⟩

theorem callers_serialized_met :
    ∃ (s : Callers) (r : Job), s.committed.row 1 = some r ∧ r.idempotencyKey = some "k" ∧
      serialCallers.Run .empty overlapping s.committed := by
  obtain ⟨s, _, hobserved, rfl, hopened, howner⟩ := overlapping_observed
  obtain ⟨hserial, htold, -⟩ := callers_serialized hobserved
  obtain ⟨r, hkey, -, hrow⟩ := htold 2 _ _ 1 hopened (List.mem_singleton_self _)
  exact ⟨s, r, hrow.resolve_right (by rw [howner]; nofun), hkey "k" rfl, hserial⟩

end DurableQueue
