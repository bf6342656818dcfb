import AgenticExecution.Scheduler
import AgenticExecution.Library.Lts

set_option autoImplicit false

/-! # Queue mode

The whole platform in queue mode: the database, Redis, and any number of handlers in progress. An
event starts a handler or lets one of them take its next atomic effect; the fault events deliver a
published job again, raise an exception out of a handler's pending call, or stop a handler for
good. -/

namespace AgenticExecution

/-- The tables, Redis, and the handlers. -/
structure State where
  db : Db := {}
  redis : Redis := {}
  /-- The handlers started so far, finished ones included. -/
  handlers : List Pc := []
  /-- The time of the latest event that carries one. -/
  clock : Time := 0

/-- What may happen next, in any order. -/
inductive Event
  /-- `POST /executions` commits its row; its handler then enqueues the plan job. -/
  | createExecution (userRequest : String) (now : Time)
  /-- A consumer pops the next job. -/
  | dequeue
  /-- A promoter thread calls `promote_due`. -/
  | promoteDue
  /-- A reaper thread calls `recover_stale_tasks`. -/
  | recoverStaleTasks
  /-- Handler `hid` takes its next step. -/
  | run (hid : Nat) (o : Oracle)
  /-- A job that was published is delivered again. -/
  | redeliver (job : Job)
  /-- The pending call of handler `hid` raises. -/
  | raise (hid : Nat) (exc : Exn)
  /-- Handler `hid` stops for good. -/
  | crash (hid : Nat)

/-- The handler `_handle_job` starts. -/
def Job.handler : Job → Pc
  | .plan e => .planProvider e
  | .task tid => .taskProvider tid

namespace State

/-- A handler is started. -/
def spawn (s : State) (pc : Pc) : State := { s with handlers := s.handlers ++ [pc] }

/-- A handler goes on. -/
def move (s : State) (hid : Nat) (pc : Pc) : State := { s with handlers := s.handlers.set hid pc }

/-- The handler `hid` while it is in progress. -/
def live? (s : State) (hid : Nat) : Option Pc :=
  match s.handlers[hid]? with
  | some .done => none
  | found => found

/-- The state after handler `hid` did `act`. -/
def perform (s : State) (hid : Nat) (now : Time) : Act → State
  | .goto pc => { s.move hid pc with clock := now }
  | .commit τ k =>
    { s.move hid (k (s.db.rowcount τ)) with db := s.db.commit now τ, clock := now }
  | .send c k => { s.move hid (k (s.redis.reply c)) with redis := s.redis.send c, clock := now }

/-- The row `POST /executions` stores. -/
def newExecution (s : State) (userRequest : String) (now : Time) : Execution where
  id := s.db.executions.fresh
  userRequest := strip userRequest
  updatedAt := now

/-- `POST /executions`, as far as its commit. -/
def createExecution (s : State) (userRequest : String) (now : Time) : State :=
  let x := s.newExecution userRequest now
  { s.spawn (.enqueuePlan x.id) with
    db := { s.db with executions := s.db.executions.insertAll [x] }
    clock := now }

/-- What an event does; `none` where it cannot happen. -/
def step (cfg : Config) (s : State) : Event → Option State
  | .createExecution userRequest now => some (s.createExecution userRequest now)
  | .dequeue =>
    match s.redis.queue with
    | [] => none
    | job :: queue => some { s.spawn job.handler with redis := { s.redis with queue := queue } }
  | .promoteDue => some (s.spawn .promoteSelect)
  | .recoverStaleTasks => some (s.spawn .recoverSelect)
  | .run hid o => (s.live? hid).map fun pc => s.perform hid o.now (pc.act cfg o s.db s.redis)
  | .redeliver job => if job ∈ s.redis.published then some (s.spawn job.handler) else none
  | .raise hid exc => (s.live? hid).map fun pc => s.move hid (pc.raised exc)
  | .crash hid => (s.live? hid).map fun _ => s.move hid .done

end State

/-- Queue mode as a transition system: no rows, no jobs, no handlers at the start. -/
def queueMode (cfg : Config) : Lts State Event where
  init := {}
  step := State.step cfg

/-- An environment that admits every event. -/
def anyEvent : State → Event → Prop := fun _ _ => True

/-! ## Schedules

A concrete run is a list of events. `runs` lets one handler take several steps under the oracle `o`;
with `fallbackConfig` no answer of the planning model decodes, so every plan is the fallback. -/

/-- A planner none of whose answers can be decoded. -/
def fallbackConfig (settings : Settings) : Config where
  settings := settings
  python := { loads := fun _ => none, repr := fun _ => "" }

/-- One subtask in every plan. -/
def singleTask (taskMaxRetries : Int) : Settings where
  plannerMinTasks := 1
  plannerMaxTasks := 1
  taskMaxRetries := taskMaxRetries

/-- `n` steps of handler `hid`. -/
def runs (hid n : Nat) (o : Oracle) : List Event := List.replicate n (.run hid o)

/-- An agent that raises. -/
def raising (now : Time) : Oracle where
  now := now
  agent := .error { typeName := "E", message := "" }

/-- One execution with the fallback plan, from its submission to its end. -/
def completionSchedule : List Event :=
  .createExecution "q" 0 :: runs 0 1 { now := 0 } ++ .dequeue :: runs 1 22 { now := 0 } ++
    .dequeue :: runs 2 18 { now := 0 } ++ .dequeue :: runs 3 24 { now := 0 } ++
    .dequeue :: runs 4 26 { now := 0 }

end AgenticExecution
