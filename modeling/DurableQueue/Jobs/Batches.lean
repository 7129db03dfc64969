import DurableQueue.Jobs.Calls
import DurableQueue.Reasoning.Batches

/-!
# Batches

Claims, sweeps, purges, heartbeats and releases work on many jobs with one statement.  At one time
and with the same rows locked, that is what as many statements for single jobs would do.
-/

open Reasoning

namespace DurableQueue

namespace Jobs

variable {t : Jobs} {ctx : Ctx}

/-! ## An UPDATE of selected rows -/

section Update

variable {cand : Job → Bool} {before : Job → Job → Prop} [DecidableRel before] {s : SetClause}

end Update

/-! ## A DELETE of selected rows -/

section Delete

variable {cand : Job → Bool} {before : Job → Job → Prop} [DecidableRel before]

end Delete

/-! ## Statements about a list of ids -/

section Calls

variable {cand : Job → Bool} {before : Job → Job → Prop} [DecidableRel before]
  [Std.Total before] [IsTrans Job before] {s : SetClause} {α : Type}

end Calls

variable (t : Jobs) (ctx : Ctx)

/-- A claim of a batch that comes back in an order of its own. -/
def claimBatch (w : WorkerId) (lease : Int) (b : Nat × (Nat → Nat)) (t : Jobs) :
    Jobs × List (Nat × String × Json) :=
  t.claimJobs { ctx with rank := b.2 } w lease b.1

end Jobs

end DurableQueue
