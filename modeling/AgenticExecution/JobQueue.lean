import AgenticExecution.Models

set_option autoImplicit false

/-! # Redis job queue

The list of jobs, the sorted set of delayed retries and the dead-letter list, with the commands the
program sends. `published` is not in Redis: it remembers every job ever pushed, the jobs a delivery
may repeat. -/

namespace AgenticExecution

/-- A job of the main queue. -/
inductive Job
  | plan (executionId : ExecutionId)
  | task (taskId : TaskId)
  deriving DecidableEq

/-- What `push_dead_letter` is called with. -/
structure DeadLetter where
  taskId : TaskId
  executionId : ExecutionId
  agentType : AgentType
  attempts : Nat
  error : String
  failedAt : Time

/-- The keys of the queue in Redis, and every job pushed so far. -/
structure Redis where
  /-- `aep:jobs`, next job first. -/
  queue : List Job := []
  /-- `aep:delayed`: each member once, with its run-at score. -/
  delayed : Table (ρ := TaskId × Time) Prod.fst := .empty
  /-- `aep:dlq`, oldest entry first. -/
  dlq : List DeadLetter := []
  published : List Job := []

/-- One Redis command that writes. -/
inductive Command
  /-- `RPUSH aep:jobs`. -/
  | enqueue (job : Job)
  /-- `schedule_task`: `ZADD aep:delayed`. -/
  | scheduleTask (taskId : TaskId) (runAt : Time)
  /-- `ZREM aep:delayed`. -/
  | removeDelayed (taskId : TaskId)
  /-- `push_dead_letter`: `RPUSH aep:dlq`. -/
  | pushDeadLetter (entry : DeadLetter)

namespace Redis

/-- `_enqueue`: RPUSH. -/
def enqueue (r : Redis) (job : Job) : Redis :=
  { r with queue := r.queue ++ [job], published := r.published ++ [job] }

/-- What a command does. -/
def send (r : Redis) : Command → Redis
  | .enqueue job => r.enqueue job
  | .scheduleTask tid runAt => { r with delayed := r.delayed.upsert (tid, runAt) }
  | .removeDelayed tid => { r with delayed := r.delayed.erase tid }
  | .pushDeadLetter entry => { r with dlq := r.dlq ++ [entry] }

/-- The reply to `ZREM`: the number of members removed. The other replies are not looked at. -/
def reply (r : Redis) : Command → Nat
  | .removeDelayed tid => if (r.delayed.find? tid).isSome then 1 else 0
  | _ => 0

/-- `ZRANGEBYSCORE aep:delayed -inf now`. -/
def due (r : Redis) (now : Time) : List TaskId :=
  (r.delayed.rows.filter fun entry => decide (entry.2 ≤ now)).map Prod.fst

end Redis

end AgenticExecution
