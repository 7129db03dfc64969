import DurableQueue.Jobs.Calls
import Mathlib.Data.List.AList

/-!
# The heartbeat

`_Heartbeat` of `worker.py`: the leases it keeps alive, each with the time of `monotonic()` after
which it lets go of it, and the beat that extends the live ones.
-/

open Reasoning

namespace DurableQueue

/-- `_deadlines`. -/
abbrev Deadlines := AList fun _ : Nat ↦ Option Int

namespace Deadlines

def hold (m : Deadlines) (jobIds : List Nat) (maxExecution : Option Int) (monotonic : Int) :
    Deadlines :=
  let deadline := maxExecution.map (monotonic + ·)
  jobIds.foldl (fun m id ↦ m.insert id deadline) m

def release (m : Deadlines) (jobIds : List Nat) : Deadlines :=
  jobIds.foldl (fun m id ↦ m.erase id) m

-- `[job_id for job_id, deadline in items() if deadline is None or now < deadline]`
def live (m : Deadlines) (now : Int) : List Nat :=
  (m.entries.filter fun e ↦ e.2.all (decide <| now < ·)).map Sigma.fst

theorem lookup_hold (m : Deadlines) (jobIds : List Nat) (maxExecution : Option Int)
    (monotonic : Int) (id : Nat) :
    (m.hold jobIds maxExecution monotonic).lookup id =
      if id ∈ jobIds then some (maxExecution.map (monotonic + ·)) else m.lookup id := by
  unfold hold
  induction jobIds generalizing m with
  | nil => rw [if_neg List.not_mem_nil, List.foldl_nil]
  | cons k ks ih =>
      rw [List.foldl_cons, ih]
      by_cases hks : id ∈ ks
      · rw [if_pos hks, if_pos (List.mem_cons_of_mem k hks)]
      · rw [if_neg hks]
        by_cases hk : id = k
        · rw [hk, AList.lookup_insert, if_pos List.mem_cons_self]
        · rw [AList.lookup_insert_ne hk, if_neg]
          exact fun h ↦ (List.mem_cons.mp h).elim hk hks

theorem lookup_release (m : Deadlines) (jobIds : List Nat) (id : Nat) :
    (m.release jobIds).lookup id = if id ∈ jobIds then none else m.lookup id := by
  unfold release
  induction jobIds generalizing m with
  | nil => rw [if_neg List.not_mem_nil, List.foldl_nil]
  | cons k ks ih =>
      rw [List.foldl_cons, ih]
      by_cases hks : id ∈ ks
      · rw [if_pos hks, if_pos (List.mem_cons_of_mem k hks)]
      · rw [if_neg hks]
        by_cases hk : id = k
        · rw [hk, AList.lookup_erase, if_pos List.mem_cons_self]
        · rw [AList.lookup_erase_ne hk, if_neg]
          exact fun h ↦ (List.mem_cons.mp h).elim hk hks

theorem mem_live {m : Deadlines} {now : Int} {id : Nat} {deadline : Option Int}
    (h : m.lookup id = some deadline) (hnow : ∀ d, deadline = some d → now < d) :
    id ∈ m.live now := by
  have hmem : (⟨id, deadline⟩ : Sigma fun _ : Nat ↦ Option Int) ∈ m.entries :=
    AList.mem_lookup_iff.mp h
  have hlive : (deadline.all (decide <| now < ·)) = true := by
    cases deadline with
    | none => rfl
    | some d => exact decide_eq_true (hnow d rfl)
  unfold live
  exact List.mem_map.mpr ⟨_, List.mem_filter.mpr ⟨hmem, hlive⟩, rfl⟩

theorem lookup_of_mem_live {m : Deadlines} {now : Int} {id : Nat} (h : id ∈ m.live now) :
    ∃ deadline, m.lookup id = some deadline ∧ ∀ d, deadline = some d → now < d := by
  obtain ⟨⟨id, deadline⟩, hmem, rfl⟩ := List.mem_map.mp h
  obtain ⟨hin, hlive⟩ := List.mem_filter.mp hmem
  refine ⟨deadline, AList.mem_lookup_iff.mpr hin, fun d hd ↦ ?_⟩
  rw [show deadline = some d from hd] at hlive
  exact of_decide_eq_true hlive

/-- One round of `_loop`. -/
def beat (m : Deadlines) (t : Jobs) (ctx : Ctx) (workerId : WorkerId) (leaseSeconds : Int)
    (monotonic : Int) : Jobs :=
  if m.live monotonic = [] then t
  else t.extendLeases ctx (m.live monotonic) workerId leaseSeconds

-- A beat extends every lease that is in the map, not past its deadline, and still held.
theorem row_beat {m : Deadlines} {t : Jobs} {workerId : WorkerId} {id : Nat} {r : Job}
    {deadline : Option Int} {monotonic : Int} (ctx : Ctx) (leaseSeconds : Int)
    (hin : m.lookup id = some deadline) (hnow : ∀ d, deadline = some d → monotonic < d)
    (hr : t.row id = some r) (hheld : r.heldBy workerId) :
    (m.beat t ctx workerId leaseSeconds monotonic).row id =
      some { r with lockedUntil := some (ctx.now + seconds leaseSeconds) } := by
  have hmem := mem_live hin hnow
  unfold beat
  rw [if_neg (List.ne_nil_of_mem hmem)]
  exact Jobs.row_updateHeld_of_heldBy hr hmem hheld _

end Deadlines

end DurableQueue
