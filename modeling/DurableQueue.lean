import DurableQueue.Reasoning.Runs
import DurableQueue.Jobs.Statements
import DurableQueue.Jobs.Calls
import DurableQueue.Jobs.Lifecycle
import DurableQueue.Jobs.History
import DurableQueue.Jobs.Recoveries
import DurableQueue.Jobs.EnqueueMany
import DurableQueue.Worker.Fleet
import DurableQueue.Worker.Fencing
import DurableQueue.Worker.Coverage
import DurableQueue.Worker.Transactional
import DurableQueue.Reasoning.EventCount
import DurableQueue.Wakeup
import DurableQueue.Reasoning.Savepoints
import DurableQueue.Sqlalchemy
import DurableQueue.Worker.IdleLoop
import DurableQueue.Worker.RunJob
import DurableQueue.Worker.Ledger
import DurableQueue.Reasoning.Totals
import DurableQueue.Worker.Process
import DurableQueue.Worker.Accounting
import DurableQueue.Worker.Survival
import DurableQueue.Worker.Ceiling
import DurableQueue.Reasoning.WallClock
import DurableQueue.Scheduler.Clock
import DurableQueue.Scheduler.Stepping
import DurableQueue.Scheduler.Schedule
import DurableQueue.Scheduler.SessionZone
import DurableQueue.Scheduler.Slots
import DurableQueue.Scheduler.FiresOnce
import DurableQueue.Scheduler.Moves
import DurableQueue.Scheduler.Calendar
import DurableQueue.Scheduler.Accepted
import DurableQueue.Scheduler.IdleLoop
import DurableQueue.Reasoning.Loops
import DurableQueue.Reasoning.SuffixCode
import DurableQueue.Effects
import DurableQueue.Worker.Limit
import DurableQueue.Scheduler.Keys
import DurableQueue.Worker.MarkFailed
import DurableQueue.Reasoning.Handover
import DurableQueue.Worker.Shutdown
import DurableQueue.Worker.Connections
import DurableQueue.Runner
import DurableQueue.Reasoning.RowLocks
import DurableQueue.Worker.Contention
import DurableQueue.Reasoning.WriteAhead
import DurableQueue.Jobs.Durability
import DurableQueue.Db
import DurableQueue.Worker.Listening
import DurableQueue.Reasoning.Potential
import DurableQueue.Worker.Overtaking
import DurableQueue.Jobs.Budget
import DurableQueue.Jobs.Retention
import DurableQueue.Worker.Punctual
import DurableQueue.Jobs.Uncommitted
import DurableQueue.Callers
import DurableQueue.Worker.Rest
import DurableQueue.Reasoning.Batches
import DurableQueue.Jobs.Batches
import DurableQueue.IdleProcess
import DurableQueue.Jobs.Stats
import DurableQueue.Worker.Drain
