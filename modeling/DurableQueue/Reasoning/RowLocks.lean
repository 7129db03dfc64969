import DurableQueue.Reasoning.Runs
import Mathlib.Data.List.Nodup
import Mathlib.Data.List.Sublists
import Mathlib.Logic.Function.Basic

/-!
# Statements that lock rows one by one

A statement goes through the rows of its snapshot, locks those that still meet its condition, and
writes what it has locked when it commits.  A row that another statement has locked it waits for,
or passes over.  Whatever the interleaving, each such statement is one step at its commit, for which
the rows that have escaped it are not there.
-/

namespace Reasoning

/-- Statements `σ` on a store `S` of rows `ρ` with keys `κ`: the rows that one comes across in its
snapshot, its condition, which of two rows it comes to first, how many rows it takes at most,
whether it passes over locked rows, and what it does to the rows it has taken. -/
structure RowStore (S κ ρ σ : Type*) where
  row : S → κ → Option ρ
  key : ρ → κ
  targets : σ → S → List ρ
  cand : σ → ρ → Bool
  precedes : σ → ρ → ρ → Bool
  limit : σ → Option Nat
  skips : σ → Bool
  write : S → σ → List ρ → S
  row_key : ∀ {s k r}, row s k = some r → key r = k
  targets_nodup : ∀ c s, ((targets c s).map key).Nodup
  mem_targets : ∀ {c s r}, r ∈ targets c s ↔ row s (key r) = some r ∧ cand c r = true
  targets_sorted : ∀ c s, (targets c s).Pairwise fun r q ↦ precedes c q r = false
  key_eq : ∀ {c r q}, precedes c q r = false → precedes c r q = false → key q = key r
  row_write : ∀ s c rows k, k ∉ rows.map key → row (write s c rows) k = row s k

/-- A statement under way: its snapshot, what is left of it, the rows it has locked, as they are,
and the keys of those that it has come to and left: `skipped` were locked by another statement, and
`changed` did not meet the condition any more. -/
structure OpenStatement (S κ ρ σ : Type*) where
  stmt : σ
  snapshot : S
  todo : List ρ
  taken : List ρ
  skipped : List κ
  changed : List κ

structure Contended (S κ ρ σ : Type*) where
  store : S
  opened : Nat → Option (OpenStatement S κ ρ σ)

inductive ContendedAct (σ ε : Type*) where
  | begin (n : Nat) (c : σ)
  | take (n : Nat)
  | skip (n : Nat)
  | pass (n : Nat)
  | commit (n : Nat)
  | crash (n : Nat)
  | other (e : ε)

namespace Contended

variable {S κ ρ σ ε : Type*}

def start (s : S) : Contended S κ ρ σ := ⟨s, fun _ ↦ none⟩

def set (s : Contended S κ ρ σ) (n : Nat) (x : Option (OpenStatement S κ ρ σ)) :
    Contended S κ ρ σ :=
  { s with opened := Function.update s.opened n x }

end Contended

namespace RowStore

variable {S κ ρ σ ε : Type*} (M : RowStore S κ ρ σ) (env : S → ε → S)

def locks (x : OpenStatement S κ ρ σ) (k : κ) : Prop := k ∈ x.taken.map M.key

/-- No other statement has the row locked. -/
def Free (s : Contended S κ ρ σ) (n : Nat) (k : κ) : Prop :=
  ∀ n' x, n' ≠ n → s.opened n' = some x → ¬ M.locks x k

inductive Step : Contended S κ ρ σ → ContendedAct σ ε → Contended S κ ρ σ → Prop where
  | begin {s : Contended S κ ρ σ} {n : Nat} {c : σ} (hnew : s.opened n = none) :
      Step s (.begin n c) (s.set n (some ⟨c, s.store, M.targets c s.store, [], [], []⟩))
  | take {s : Contended S κ ρ σ} {n : Nat} {x : OpenStatement S κ ρ σ} {r r' : ρ} {rest : List ρ}
      (hx : s.opened n = some x) (htodo : x.todo = r :: rest)
      (hroom : ∀ limit, M.limit x.stmt = some limit → x.taken.length < limit)
      (hrow : M.row s.store (M.key r) = some r') (hcand : M.cand x.stmt r' = true)
      (hfree : M.Free s n (M.key r)) :
      Step s (.take n) (s.set n (some { x with todo := rest, taken := x.taken ++ [r'] }))
  | skip {s : Contended S κ ρ σ} {n : Nat} {x : OpenStatement S κ ρ σ} {r : ρ} {rest : List ρ}
      (hx : s.opened n = some x) (htodo : x.todo = r :: rest)
      (hroom : ∀ limit, M.limit x.stmt = some limit → x.taken.length < limit)
      (hskips : M.skips x.stmt = true) (hlocked : ¬ M.Free s n (M.key r)) :
      Step s (.skip n)
        (s.set n (some { x with todo := rest, skipped := x.skipped ++ [M.key r] }))
  | pass {s : Contended S κ ρ σ} {n : Nat} {x : OpenStatement S κ ρ σ} {r : ρ} {rest : List ρ}
      (hx : s.opened n = some x) (htodo : x.todo = r :: rest)
      (hroom : ∀ limit, M.limit x.stmt = some limit → x.taken.length < limit)
      (hchanged : ∀ r', M.row s.store (M.key r) = some r' → M.cand x.stmt r' = false) :
      Step s (.pass n)
        (s.set n (some { x with todo := rest, changed := x.changed ++ [M.key r] }))
  | commit {s : Contended S κ ρ σ} {n : Nat} {x : OpenStatement S κ ρ σ}
      (hx : s.opened n = some x) (hdone : x.todo = [] ∨ M.limit x.stmt = some x.taken.length) :
      Step s (.commit n) { s.set n none with store := M.write s.store x.stmt x.taken }
  | crash {s : Contended S κ ρ σ} {n : Nat} {x : OpenStatement S κ ρ σ}
      (hx : s.opened n = some x) : Step s (.crash n) (s.set n none)
  | other {s : Contended S κ ρ σ} {e : ε}
      (hkeeps : ∀ n x k, s.opened n = some x → M.locks x k →
        M.row (env s.store e) k = M.row s.store k) :
      Step s (.other e) { s with store := env s.store e }

def contended : System (Contended S κ ρ σ) (ContendedAct σ ε) where
  init s := ∀ n, s.opened n = none
  step := M.Step env

/-! ## The rows that escape a statement -/

/-- Whether the row met the condition when the statement took its snapshot. -/
def saw (x : OpenStatement S κ ρ σ) (k : κ) : Bool :=
  (M.row x.snapshot k).any (M.cand x.stmt)

/-- What a statement takes of a store where the rows `out` are not there. -/
def picks (c : σ) (out : κ → Bool) (t : S) : List ρ :=
  let free := (M.targets c t).filter fun r ↦ !out (M.key r)
  (M.limit c).elim free free.take

/-- A row that the LIMIT has left, and that in `t` comes before one that has been taken. -/
def overtakes [DecidableEq κ] (x : OpenStatement S κ ρ σ) (t : S) (k : κ) : Bool :=
  decide (k ∈ x.todo.map M.key) &&
    (M.row t k).any fun q ↦ x.taken.any fun r ↦ M.precedes x.stmt q r

/-- The rows of `t` that the statement has come to and left, has not seen in its snapshot, or has
not come to in the order that they have now. -/
def missed [DecidableEq κ] (x : OpenStatement S κ ρ σ) (t : S) (k : κ) : Bool :=
  decide (k ∈ x.skipped) || decide (k ∈ x.changed) || !M.saw x k || M.overtakes x t k

/-- What can be seen of a run: the statements that commit, with the rows they have written and those
that they have left, and whatever else changes the store. -/
inductive Done (S κ ρ σ ε : Type*) where
  | statement (x : OpenStatement S κ ρ σ)
  | other (e : ε)

/-- The store under statements of one step each. -/
def wholesale [DecidableEq κ] : System S (Done S κ ρ σ ε) where
  init _ := True
  step s a t := match a with
    | .statement x =>
        (M.picks x.stmt (M.missed x s) s).Perm x.taken ∧ t = M.write s x.stmt x.taken
    | .other e => t = env s e

def shows (s : Contended S κ ρ σ) (a : ContendedAct σ ε) (_ : Contended S κ ρ σ) :
    List (Done S κ ρ σ ε) :=
  match a with
  | .commit n => (s.opened n).elim [] fun x ↦ [.statement x]
  | .other e => [.other e]
  | _ => []

/-! ## What the locks keep -/

/-- What a statement has taken is still there, and with what it has left and what it has yet to come
to it makes up the snapshot's rows, in their order. -/
structure Holds (s : S) (x : OpenStatement S κ ρ σ) : Prop where
  found : ∀ r ∈ x.taken, M.row s (M.key r) = some r ∧ M.cand x.stmt r = true
  bounded : ∀ limit, M.limit x.stmt = some limit → x.taken.length ≤ limit
  whole : (x.taken.map M.key ++ (x.skipped ++ x.changed) ++ x.todo.map M.key).Perm
    ((M.targets x.stmt x.snapshot).map M.key)
  ordered : (x.taken.map M.key ++ x.todo.map M.key).Sublist
    ((M.targets x.stmt x.snapshot).map M.key)

structure Inv (s : Contended S κ ρ σ) : Prop where
  holds : ∀ n x, s.opened n = some x → M.Holds s.store x
  disjoint : ∀ n n' x x' k, n ≠ n' → s.opened n = some x → s.opened n' = some x' →
    M.locks x k → ¬ M.locks x' k

variable {M env} {s t : Contended S κ ρ σ} {a : ContendedAct σ ε} {n n' : Nat}
  {x y : OpenStatement S κ ρ σ}

theorem set_cases {o : Option (OpenStatement S κ ρ σ)} (h : (s.set n o).opened n' = some x) :
    n' = n ∧ o = some x ∨ n' ≠ n ∧ s.opened n' = some x := by
  by_cases hn : n' = n
  · subst hn
    exact Or.inl ⟨rfl, by simpa only [Contended.set, Function.update_self] using h⟩
  · exact Or.inr ⟨hn, by simpa only [Contended.set, Function.update_of_ne hn] using h⟩

theorem Holds.of_rows {s s' : S} (h : M.Holds s x)
    (hrows : ∀ k, M.locks x k → M.row s' k = M.row s k) : M.Holds s' x where
  found r hr := ⟨(hrows _ (List.mem_map_of_mem hr)).trans (h.found r hr).1, (h.found r hr).2⟩
  bounded := h.bounded
  whole := h.whole
  ordered := h.ordered

-- A statement opens or goes on, and locks no more than it has or finds free.
theorem Inv.set (h : M.Inv s) (hholds : M.Holds s.store y)
    (hlocks : ∀ k, M.locks y k → (∃ x, s.opened n = some x ∧ M.locks x k) ∨ M.Free s n k) :
    M.Inv (s.set n (some y)) := by
  have hapart {n' : Nat} {z : OpenStatement S κ ρ σ} {k : κ} (hn : n' ≠ n)
      (hz : s.opened n' = some z) (hk : M.locks y k) : ¬ M.locks z k := by
    rcases hlocks k hk with ⟨x, hx, hold⟩ | hfree
    · exact h.disjoint n n' x z k hn.symm hx hz hold
    · exact hfree n' z hn hz
  refine ⟨fun i z hz ↦ ?_, fun i j z w k hne hz hw hk ↦ ?_⟩
  · rcases set_cases hz with ⟨-, heq⟩ | ⟨-, hz⟩
    · obtain rfl := Option.some.inj heq
      exact hholds
    · exact h.holds i z hz
  · rcases set_cases hz with ⟨hi, heq⟩ | ⟨hi, hz⟩ <;>
      rcases set_cases hw with ⟨hj, heq'⟩ | ⟨hj, hw⟩
    · exact absurd (hi.trans hj.symm) hne
    · obtain rfl := Option.some.inj heq
      exact hapart hj hw hk
    · obtain rfl := Option.some.inj heq'
      exact fun hk' ↦ hapart hi hz hk' hk
    · exact h.disjoint i j z w k hne hz hw hk

-- A statement ends, and the store changes but for what the others have locked.
theorem Inv.drop (h : M.Inv s) {s' : S}
    (hrows : ∀ n' x k, n' ≠ n → s.opened n' = some x → M.locks x k →
      M.row s' k = M.row s.store k) :
    M.Inv { s.set n none with store := s' } := by
  have hold {i : Nat} {z : OpenStatement S κ ρ σ} (hz : (s.set n none).opened i = some z) :
      i ≠ n ∧ s.opened i = some z := by
    rcases set_cases hz with ⟨-, heq⟩ | hz
    · cases heq
    · exact hz
  refine ⟨fun i z hz ↦ ?_, fun i j z w k hne hz hw ↦ ?_⟩
  · obtain ⟨hi, hz⟩ := hold hz
    exact (h.holds i z hz).of_rows fun k hk ↦ hrows i z k hi hz hk
  · exact h.disjoint i j z w k hne (hold hz).2 (hold hw).2

-- A row that the statement has come to goes from the rest of the snapshot to where it is kept.
theorem perm_moved (as bs cs : List κ) (k : κ) :
    (as ++ [k] ++ bs ++ cs).Perm (as ++ bs ++ k :: cs) := by
  rw [List.append_assoc, List.append_assoc, List.append_assoc, List.singleton_append]
  exact List.perm_middle.symm.append_left as

theorem Inv.step (h : M.Inv s) (ha : M.Step env s a t) : M.Inv t := by
  cases ha with
  | @begin n c hnew =>
      refine h.set ⟨nofun, fun _ _ ↦ Nat.zero_le _, ?_, ?_⟩ nofun
      · exact List.Perm.refl _
      · exact List.Sublist.refl _
  | @take n x r r' rest hx htodo hroom hrow hcand hfree =>
      obtain ⟨hfound, hbounded, hwhole, hordered⟩ := h.holds n x hx
      have hkey : M.key r' = M.key r := M.row_key hrow
      rw [htodo, List.map_cons] at hwhole hordered
      refine h.set ⟨fun q hq ↦ ?_, fun limit hlimit ↦ ?_, ?_, ?_⟩ fun k hk ↦ ?_
      · rcases List.mem_append.mp hq with hq | hq
        · exact hfound q hq
        · obtain rfl := List.mem_singleton.mp hq
          exact ⟨hkey ▸ hrow, hcand⟩
      · have hlt := hroom limit hlimit
        rw [List.length_append, List.length_singleton]
        exact hlt
      · rw [List.map_append, List.map_singleton, hkey]
        exact (perm_moved _ _ _ _).trans hwhole
      · rw [List.map_append, List.map_singleton, hkey, List.append_assoc]
        exact hordered
      · unfold locks at hk
        rw [List.map_append] at hk
        rcases List.mem_append.mp hk with hk | hk
        · exact Or.inl ⟨x, hx, hk⟩
        · obtain rfl := List.mem_singleton.mp hk
          rw [hkey]
          exact Or.inr hfree
  | @skip n x r rest hx htodo hroom hskips hlocked =>
      obtain ⟨hfound, hbounded, hwhole, hordered⟩ := h.holds n x hx
      rw [htodo, List.map_cons] at hwhole hordered
      refine h.set ⟨hfound, hbounded, ?_, ?_⟩ fun k hk ↦ Or.inl ⟨x, hx, hk⟩
      · have hmoved := perm_moved (x.taken.map M.key ++ x.skipped) x.changed (rest.map M.key)
          (M.key r)
        simp only [List.append_assoc] at hmoved hwhole ⊢
        exact hmoved.trans hwhole
      · exact .trans ((List.sublist_cons_self _ _).append_left _) hordered
  | @pass n x r rest hx htodo hroom hchanged =>
      obtain ⟨hfound, hbounded, hwhole, hordered⟩ := h.holds n x hx
      rw [htodo, List.map_cons] at hwhole hordered
      refine h.set ⟨hfound, hbounded, ?_, ?_⟩ fun k hk ↦ Or.inl ⟨x, hx, hk⟩
      · simp only [List.append_assoc, List.singleton_append] at hwhole ⊢
        exact hwhole
      · exact .trans ((List.sublist_cons_self _ _).append_left _) hordered
  | @commit n x hx hdone =>
      exact h.drop fun n' y k hn hy hk ↦ M.row_write _ _ _ _ (h.disjoint n' n y x k hn hy hx hk)
  | crash => exact h.drop fun _ _ _ _ _ _ ↦ rfl
  | other hkeeps =>
      exact ⟨fun n x hx ↦ (h.holds n x hx).of_rows fun k hk ↦ hkeeps n x k hx hk, h.disjoint⟩

theorem inv_start (s : S) : M.Inv (.start s) := ⟨nofun, nofun⟩

/-! ## A statement by itself -/

/-- What a statement takes if nothing comes in its way. -/
def all (M : RowStore S κ ρ σ) (c : σ) (s : S) : List ρ :=
  (M.limit c).elim (M.targets c s) (M.targets c s).take

theorem run_rest {store : S} {c : σ} {taken todo : List ρ}
    (htargets : taken ++ todo = M.targets c store)
    (hbounded : ∀ limit, M.limit c = some limit → taken.length ≤ limit) :
    ∃ as, (M.contended env).Run
      ((Contended.start store).set 0 (some ⟨c, store, todo, taken, [], []⟩)) as
      (.start (M.write store c (M.all c store))) := by
  have hopened (x : OpenStatement S κ ρ σ) :
      ((Contended.start store).set 0 (some x)).opened 0 = some x := by
    simp only [Contended.set, Function.update_self]
  have hset {x y : Option (OpenStatement S κ ρ σ)} :
      ((Contended.start store).set 0 x).set 0 y = (Contended.start store).set 0 y := by
    simp only [Contended.set, Function.update_idem]
  have hclosed :
      (Contended.start store).set 0 none = (Contended.start store : Contended S κ ρ σ) := by
    simp only [Contended.set, Contended.start, Function.update_eq_self]
  -- by induction on what is left, the taken rows being the first of the targets
  induction todo generalizing taken with
  | nil =>
      have hall : M.all c store = taken := by
        unfold all
        rw [← htargets, List.append_nil]
        cases hlimit : M.limit c with
        | none => rfl
        | some limit => exact List.take_of_length_le (hbounded limit hlimit)
      have hstep : M.Step env _ _ _ := .commit (hopened ⟨c, store, [], taken, [], []⟩) (Or.inl rfl)
      rw [hset, hclosed] at hstep
      rw [hall]
      exact ⟨_, .single hstep⟩
  | cons r rest ih =>
      by_cases hfull : M.limit c = some taken.length
      · have hall : M.all c store = taken := by
          unfold all
          rw [hfull, ← htargets]
          exact List.take_left
        have hstep : M.Step env _ _ _ :=
          .commit (hopened ⟨c, store, r :: rest, taken, [], []⟩) (Or.inr hfull)
        rw [hset, hclosed] at hstep
        rw [hall]
        exact ⟨_, .single hstep⟩
      · have hroom : ∀ limit, M.limit c = some limit → taken.length < limit := by
          intro limit hlimit
          refine Nat.lt_of_le_of_ne (hbounded limit hlimit) fun heq ↦ hfull ?_
          rw [hlimit, heq]
        have hmem : r ∈ M.targets c store := by
          rw [← htargets]
          exact List.mem_append_right _ List.mem_cons_self
        obtain ⟨hrow, hcand⟩ := M.mem_targets.mp hmem
        have hfree : M.Free
            ((Contended.start store).set 0 (some ⟨c, store, r :: rest, taken, [], []⟩)) 0
            (M.key r) := by
          intro n' y hn hy
          rcases set_cases hy with ⟨hn', -⟩ | ⟨-, hy⟩
          · exact absurd hn' hn
          · cases hy
        have hstep : M.Step env _ _ _ :=
          .take (hopened ⟨c, store, r :: rest, taken, [], []⟩) rfl hroom hrow hcand hfree
        rw [hset] at hstep
        have hnext : (taken ++ [r]) ++ rest = M.targets c store := by
          rw [List.append_assoc]
          exact htargets
        obtain ⟨as, hrun⟩ := ih hnext fun limit hlimit ↦ by
          rw [List.length_append, List.length_singleton]
          exact hroom limit hlimit
        exact ⟨_, .cons hstep hrun⟩

theorem run_alone (M : RowStore S κ ρ σ) (env : S → ε → S) (store : S) (c : σ) :
    ∃ as, (M.contended env).Run (.start store) as (.start (M.write store c (M.all c store))) := by
  have hnone : [] ++ M.targets c store = M.targets c store := rfl
  obtain ⟨as, hrun⟩ : ∃ as, (M.contended env).Run _ as _ :=
    run_rest hnone fun _ _ ↦ Nat.zero_le _
  exact ⟨_, .cons (.begin (n := 0) (c := c) rfl) hrun⟩

/-! ## One step for each statement -/

section Take

variable {precedes : ρ → ρ → Bool} {key : ρ → κ} {l taken : List ρ}

-- The first rows of a sorted list are those that no other row of it precedes.
theorem perm_take (hkey : ∀ {r q}, precedes q r = false → precedes r q = false → key q = key r)
    (hsorted : l.Pairwise fun r q ↦ precedes q r = false) (hl : (l.map key).Nodup)
    (htaken : taken.Nodup) (hsub : ∀ r ∈ taken, r ∈ l)
    (hfirst : ∀ q ∈ l, q ∉ taken → ∀ r ∈ taken, precedes q r = false) :
    (l.take taken.length).Perm taken := by
  have hsplit := List.take_append_drop taken.length l
  have hle : taken.length ≤ l.length :=
    (List.subperm_of_subset htaken hsub).length_le
  have hlength : (l.take taken.length).length = taken.length := by
    rw [List.length_take, Nat.min_eq_left hle]
  have hnodup : (l.take taken.length).Nodup := hl.of_map.sublist (List.take_sublist _ _)
  refine List.Perm.symm ((List.subperm_of_subset htaken fun r hr ↦ ?_).perm_of_length_le hlength.le)
  by_contra hbehind
  -- then another row stands in its place
  obtain ⟨q, hq, hother⟩ : ∃ q ∈ l.take taken.length, q ∉ taken := by
    by_contra hnone
    have hall : ∀ q ∈ l.take taken.length, q ∈ taken :=
      fun q hq ↦ by_contra fun hnot ↦ hnone ⟨q, hq, hnot⟩
    have hperm := (List.subperm_of_subset hnodup hall).perm_of_length_le hlength.ge
    exact hbehind (hperm.mem_iff.mpr hr)
  have hdrop : r ∈ l.drop taken.length :=
    (List.mem_append.mp (hsplit.symm ▸ hsub r hr)).resolve_left hbehind
  have hin : q ∈ l := List.mem_of_mem_take hq
  rw [← hsplit, List.pairwise_append] at hsorted
  have hsame := hkey (hfirst q hin hother r hr) (hsorted.2.2 q hq r hdrop)
  exact hother (List.inj_on_of_nodup_map hl hin (hsub r hr) hsame ▸ hr)

end Take

namespace Holds

variable {u : S}

theorem nodup (h : M.Holds u x) :
    (x.taken.map M.key ++ (x.skipped ++ x.changed) ++ x.todo.map M.key).Nodup :=
  h.whole.nodup_iff.mpr (M.targets_nodup _ _)

theorem saw_iff (h : M.Holds u x) {k : κ} : M.saw x k = true ↔
    (k ∈ x.taken.map M.key ∨ k ∈ x.skipped ∨ k ∈ x.changed) ∨ k ∈ x.todo.map M.key := by
  have hmem : M.saw x k = true ↔ k ∈ (M.targets x.stmt x.snapshot).map M.key := by
    unfold saw
    rw [Option.any_eq_true, List.mem_map]
    constructor
    · rintro ⟨r, hr, hcand⟩
      exact ⟨r, M.mem_targets.mpr ⟨(M.row_key hr).symm ▸ hr, hcand⟩, M.row_key hr⟩
    · rintro ⟨r, hr, rfl⟩
      exact ⟨r, M.mem_targets.mp hr⟩
  rw [hmem, ← h.whole.mem_iff, List.mem_append, List.mem_append, List.mem_append]

variable [DecidableEq κ]

theorem missed_iff {k : κ} : M.missed x u k = false ↔
    k ∉ x.skipped ∧ k ∉ x.changed ∧ M.saw x k = true ∧ M.overtakes x u k = false := by
  unfold missed
  simp only [Bool.or_eq_false_iff, decide_eq_false_iff_not, Bool.not_eq_false', and_assoc]

-- What has been taken does not escape.
theorem not_missed (h : M.Holds u x) {r : ρ} (hr : r ∈ x.taken) :
    M.missed x u (M.key r) = false := by
  have hmem : M.key r ∈ x.taken.map M.key := List.mem_map_of_mem hr
  have hnodup := h.nodup
  rw [List.nodup_append, List.nodup_append] at hnodup
  obtain ⟨⟨-, -, hleft⟩, -, htodo⟩ := hnodup
  refine missed_iff.mpr ⟨fun hk ↦ ?_, fun hk ↦ ?_, h.saw_iff.mpr (Or.inl (Or.inl hmem)), ?_⟩
  · exact hleft _ hmem _ (List.mem_append_left _ hk) rfl
  · exact hleft _ hmem _ (List.mem_append_right _ hk) rfl
  · unfold overtakes
    rw [decide_eq_false fun hk ↦ htodo _ (List.mem_append_left _ hmem) _ hk rfl, Bool.false_and]

-- Whatever else does not escape is yet to come, behind all that has been taken.
theorem of_not_missed (h : M.Holds u x) {q : ρ} (hq : M.row u (M.key q) = some q)
    (hnot : q ∉ x.taken) (hmissed : M.missed x u (M.key q) = false) :
    M.key q ∈ x.todo.map M.key ∧ ∀ r ∈ x.taken, M.precedes x.stmt q r = false := by
  obtain ⟨hskipped, hchanged, hsaw, hovertakes⟩ := missed_iff.mp hmissed
  have htodo : M.key q ∈ x.todo.map M.key := by
    rcases h.saw_iff.mp hsaw with (htaken | hk | hk) | htodo
    · obtain ⟨r, hr, hkey⟩ := List.mem_map.mp htaken
      have hrow := (h.found r hr).1
      rw [hkey, hq] at hrow
      exact absurd (Option.some.inj hrow ▸ hr) hnot
    · exact absurd hk hskipped
    · exact absurd hk hchanged
    · exact htodo
  refine ⟨htodo, fun r hr ↦ ?_⟩
  unfold overtakes at hovertakes
  rw [decide_eq_true htodo, Bool.true_and, hq, Option.any_some] at hovertakes
  exact Bool.not_eq_true _ ▸ fun hprecedes ↦
    Bool.eq_false_iff.mp hovertakes (List.any_eq_true.mpr ⟨r, hr, hprecedes⟩)

/-- Where the rows that have escaped it are not there, a statement takes just what it has taken. -/
theorem picks_perm (h : M.Holds u x) (hdone : x.todo = [] ∨ M.limit x.stmt = some x.taken.length) :
    (M.picks x.stmt (M.missed x u) u).Perm x.taken := by
  let free := (M.targets x.stmt u).filter fun r ↦ !M.missed x u (M.key r)
  have hnodup : (free.map M.key).Nodup :=
    (M.targets_nodup x.stmt u).sublist (List.filter_sublist.map M.key)
  have htaken : x.taken.Nodup := by
    have hnodup := h.nodup
    rw [List.nodup_append, List.nodup_append] at hnodup
    exact hnodup.1.1.of_map
  have hsub : ∀ r ∈ x.taken, r ∈ free := by
    intro r hr
    refine List.mem_filter.mpr ⟨M.mem_targets.mpr (h.found r hr), ?_⟩
    rw [h.not_missed hr]
    rfl
  have hfree {q : ρ} (hq : q ∈ free) (hnot : q ∉ x.taken) :
      M.key q ∈ x.todo.map M.key ∧ ∀ r ∈ x.taken, M.precedes x.stmt q r = false := by
    obtain ⟨htarget, hmissed⟩ := List.mem_filter.mp hq
    rw [Bool.not_eq_true'] at hmissed
    exact h.of_not_missed (M.mem_targets.mp htarget).1 hnot hmissed
  have hall (htodo : x.todo = []) : free.Perm x.taken := by
    refine (List.perm_ext_iff_of_nodup hnodup.of_map htaken).mpr fun q ↦ ⟨fun hq ↦ ?_, hsub q⟩
    by_contra hnot
    have hrest := (hfree hq hnot).1
    rw [htodo] at hrest
    exact absurd hrest List.not_mem_nil
  change ((M.limit x.stmt).elim free free.take).Perm x.taken
  cases hlimit : M.limit x.stmt with
  | none =>
      rw [hlimit] at hdone
      exact hall (hdone.resolve_right nofun)
  | some limit =>
      rw [Option.elim_some]
      rcases hdone with htodo | hfull
      · have hperm := hall htodo
        rw [List.take_of_length_le]
        · exact hperm
        · rw [hperm.length_eq]
          exact h.bounded limit hlimit
      · obtain rfl := Option.some.inj (hlimit.symm.trans hfull)
        have hsorted := (M.targets_sorted x.stmt u).filter fun r ↦ !M.missed x u (M.key r)
        refine perm_take (fun hqr hrq ↦ M.key_eq hqr hrq) hsorted hnodup htaken hsub ?_
        exact fun q hq hnot ↦ (hfree hq hnot).2

-- A row is overtaken only if it, or one that has been taken, is not as the snapshot has it.
theorem overtakes_changed (h : M.Holds u x) {k : κ} (hk : M.overtakes x u k = true) :
    M.row u k ≠ M.row x.snapshot k ∨ ∃ r ∈ x.taken, M.row x.snapshot (M.key r) ≠ some r := by
  unfold overtakes at hk
  rw [Bool.and_eq_true, Option.any_eq_true] at hk
  obtain ⟨htodo, q, hq, hany⟩ := hk
  obtain ⟨r, hr, hprecedes⟩ := List.any_eq_true.mp hany
  by_contra hsame
  obtain ⟨hqsame, hnone⟩ := not_or.mp hsame
  have hqsame := not_not.mp hqsame
  have hrsame : ∀ r ∈ x.taken, M.row x.snapshot (M.key r) = some r :=
    fun r hr ↦ by_contra fun hne ↦ hnone ⟨r, hr, hne⟩
  obtain ⟨l, hl, hmap⟩ := List.sublist_map_iff.mp h.ordered
  obtain ⟨l₁, l₂, rfl, htaken, hrest⟩ := List.map_eq_append_iff.mp hmap.symm
  have hold {y : ρ} (hy : y ∈ l₁ ++ l₂) {o : ρ} (ho : M.row x.snapshot (M.key y) = some o) :
      y = o :=
    Option.some.inj ((M.mem_targets.mp (hl.subset hy)).1.symm.trans ho)
  obtain ⟨r', hr', hrkey⟩ := List.mem_map.mp (htaken.symm ▸ List.mem_map_of_mem hr)
  obtain ⟨q', hq', hqkey⟩ := List.mem_map.mp (hrest.symm ▸ of_decide_eq_true htodo)
  obtain rfl := hold (List.mem_append_left _ hr') (hrkey ▸ hrsame r hr)
  obtain rfl := hold (List.mem_append_right _ hq') (hqkey ▸ hqsame.symm.trans hq)
  have hsorted := (M.targets_sorted x.stmt x.snapshot).sublist hl
  have hbefore := (List.pairwise_append.mp hsorted).2.2 r' hr' q' hq'
  exact Bool.false_ne_true (hbefore.symm.trans hprecedes)

end Holds

variable [DecidableEq κ]

theorem step_wholesale (h : M.Inv s) (ha : M.Step env s a t) :
    (M.wholesale env).Run s.store (shows s a t) t.store := by
  cases ha with
  | @commit n x hx hdone =>
      change (M.wholesale env).Run s.store ((s.opened n).elim [] fun x ↦ [.statement x]) _
      rw [hx]
      exact .single ⟨(h.holds n x hx).picks_perm hdone, rfl⟩
  | other => exact .single rfl
  | begin | take | skip | pass | crash => exact .nil _

/-- Every interleaving is a run of whole statements, and no two open statements hold one row. -/
theorem observed_wholesale {store : S} {es : List (Done S κ ρ σ ε)}
    (h : (M.contended env).Observed shows (.start store) es s) :
    (M.wholesale env).Run store es s.store ∧ M.Inv s := by
  obtain ⟨u, hrun, hinv, rfl⟩ := h.simulated (A := M.wholesale env)
    (fun s u ↦ M.Inv s ∧ s.store = u)
    (fun s a t u hs ha ↦ ⟨t.store, hs.2 ▸ step_wholesale hs.1 ha, hs.1.step ha, rfl⟩)
    ⟨inv_start store, rfl⟩
  exact ⟨hrun, hinv⟩

end RowStore

end Reasoning
