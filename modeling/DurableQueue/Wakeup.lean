import DurableQueue.Reasoning.EventCount

/-!
# Waking idle loops

`wakeup.py`: the generation that a loop reads before it looks for work, and the sleep that ends as
soon as the generation is another one.
-/

open Reasoning

namespace DurableQueue

/-- Who calls `wake()` after it has done something an idle loop should see. -/
inductive Producer where
  | stopper              -- `stop.set()`, then `wake()`
  | change (n : Nat)     -- a commit, then `wake()`
  deriving DecidableEq

abbrev Wakeup := EventCount Producer

/-- 0.1 s. -/
def MIN_SLEEP : Int := 100000

/-- `None if seconds is None else max(seconds, MIN_SLEEP)`. -/
def sleepTimeout (seconds : Option Int) : Option Int := seconds.map (max · MIN_SLEEP)

/-- `stop.is_set()`. -/
def stopSet (wakeup : Wakeup) : Bool := decide (Producer.stopper ∈ wakeup.published)

end DurableQueue
