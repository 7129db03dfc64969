import DurableQueue.Reasoning.Runs

/-!
# Handing over items

A first-in, first-out queue whose items go to consumers or are withdrawn.  Counted by their places
in the sequence of what has been put in, items are neither lost nor handed over twice.
-/

namespace Reasoning

/-- What can be seen of the items: one is put in, a consumer takes one, a consumer starts to use
the one it has taken, one is withdrawn. -/
inductive Handover (γ α : Type*) where
  | put (x : α)
  | take (c : γ) (x : α)
  | use (c : γ) (x : α)
  | withdraw (x : α)

namespace Handover

variable {γ α : Type*}

def puts (es : List (Handover γ α)) : List α :=
  es.filterMap fun | put x => some x | _ => none

/-- What has left the queue, whichever way. -/
def removals (es : List (Handover γ α)) : List α :=
  es.filterMap fun | take _ x | withdraw x => some x | _ => none

def withdrawn (es : List (Handover γ α)) : List α :=
  es.filterMap fun | withdraw x => some x | _ => none

theorem puts_append (es fs : List (Handover γ α)) : puts (es ++ fs) = puts es ++ puts fs :=
  List.filterMap_append

variable [DecidableEq γ]

def takesOf (c : γ) (es : List (Handover γ α)) : List α :=
  es.filterMap fun | take d x => if d = c then some x else none | _ => none

def usesOf (c : γ) (es : List (Handover γ α)) : List α :=
  es.filterMap fun | use d x => if d = c then some x else none | _ => none

/-- The queue, what each consumer has taken and not begun to use, and what has been withdrawn. -/
structure Desk (γ α : Type*) where
  queue : List α
  hands : γ → Option α
  aside : List α

inductive DeskStep : Desk γ α → Handover γ α → Desk γ α → Prop where
  | put {d : Desk γ α} {x : α} : DeskStep d (.put x) { d with queue := d.queue ++ [x] }
  | take {d : Desk γ α} {c : γ} {x : α} {rest : List α} (hqueue : d.queue = x :: rest)
      (hfree : d.hands c = none) :
      DeskStep d (.take c x)
        { d with queue := rest, hands := Function.update d.hands c (some x) }
  | use {d : Desk γ α} {c : γ} {x : α} (hhas : d.hands c = some x) :
      DeskStep d (.use c x) { d with hands := Function.update d.hands c none }
  | withdraw {d : Desk γ α} {x : α} {rest : List α} (hqueue : d.queue = x :: rest) :
      DeskStep d (.withdraw x) { d with queue := rest, aside := d.aside ++ [x] }

def desk (γ α : Type*) [DecidableEq γ] : System (Desk γ α) (Handover γ α) where
  init d := d = ⟨[], fun _ ↦ none, []⟩
  step := DeskStep

variable {d e : Desk γ α} {es : List (Handover γ α)}

-- The place of an item among those put in is its place among those removed.
theorem queue_conserved (h : (desk γ α).Run d es e) :
    d.queue ++ puts es = removals es ++ e.queue := by
  induction h with
  | nil => exact List.append_nil _
  | cons ha _ ih =>
      cases ha with
      | put =>
          rw [List.append_assoc] at ih
          exact ih
      | take hqueue | withdraw hqueue =>
          rw [hqueue]
          exact congrArg (_ :: ·) ih
      | use => exact ih

theorem takesOf_take (c k : γ) (x : α) :
    takesOf c (take k x :: es) = (if k = c then [x] else []) ++ takesOf c es := by
  by_cases hk : k = c <;> simp [takesOf, hk]

theorem usesOf_use (c k : γ) (x : α) :
    usesOf c (use k x :: es) = (if k = c then [x] else []) ++ usesOf c es := by
  by_cases hk : k = c <;> simp [usesOf, hk]

-- What a consumer uses is what it has taken, in the same order.
theorem hands_conserved (h : (desk γ α).Run d es e) (c : γ) :
    (d.hands c).toList ++ takesOf c es = usesOf c es ++ (e.hands c).toList := by
  induction h with
  | nil => exact List.append_nil _
  | cons ha _ ih =>
      cases ha with
      | put | withdraw => exact ih
      | @take k x rest hqueue hfree =>
          rw [takesOf_take]
          dsimp only at ih
          by_cases hk : k = c
          · rw [← hk, Function.update_self] at ih
            rw [← hk, if_pos rfl, hfree]
            exact ih
          · rw [Function.update_of_ne (Ne.symm hk)] at ih
            rw [if_neg hk]
            exact ih
      | @use k x hhas =>
          rw [usesOf_use]
          dsimp only at ih
          by_cases hk : k = c
          · rw [← hk, Function.update_self] at ih
            rw [← hk, if_pos rfl, hhas, List.append_assoc, ← ih]
            rfl
          · rw [Function.update_of_ne (Ne.symm hk)] at ih
            rw [if_neg hk]
            exact ih

theorem aside_conserved (h : (desk γ α).Run d es e) : d.aside ++ withdrawn es = e.aside := by
  induction h with
  | nil => exact List.append_nil _
  | cons ha _ ih =>
      cases ha with
      | put | take | use => exact ih
      | withdraw =>
          rw [List.append_assoc] at ih
          exact ih

end Handover

end Reasoning
