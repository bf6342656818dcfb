import AgenticExecution.Machine

set_option autoImplicit false

/-! # The event stream

The handler of `GET /executions/{id}/events`, beside the platform. A snapshot is not read at once: the
execution row, the task rows, and the result of each task are SELECTs of their own, and the workers may
commit between any two of them. -/

namespace AgenticExecution

/-! ## Schemas -/

/-- `TaskRead`; of a `TaskResultRead` only the output. -/
structure TaskRead where
  id : TaskId
  executionId : ExecutionId
  agentType : AgentType
  description : String
  status : TaskStatus
  orderIndex : Int
  dependsOn : List Int
  attempts : Nat
  nextAttemptAt : Option Time
  error : Option String
  startedAt : Option Time
  completedAt : Option Time
  durationMs : Option Int
  totalTokens : Option Int
  costUsd : Option ℚ
  toolCalls : Int
  updatedAt : Time
  result : Option String
  deriving DecidableEq

/-- `ExecutionRead`. -/
structure ExecutionRead where
  id : ExecutionId
  userRequest : String
  status : ExecutionStatus
  finalResult : Option String
  error : Option String
  startedAt : Option Time
  completedAt : Option Time
  durationMs : Option Int
  totalTokens : Option Int
  costUsd : Option ℚ
  updatedAt : Time
  tasks : List TaskRead
  deriving DecidableEq

/-- `TaskRead.model_validate`, with the result row `task.result` loads. -/
def Task.modelValidate (t : Task) (result : Option TaskResult) : TaskRead where
  id := t.id
  executionId := t.executionId
  agentType := t.agentType
  description := t.description
  status := t.status
  orderIndex := t.orderIndex
  dependsOn := t.dependsOn
  attempts := t.attempts
  nextAttemptAt := t.nextAttemptAt
  error := t.error
  startedAt := t.startedAt
  completedAt := t.completedAt
  durationMs := t.durationMs
  totalTokens := t.totalTokens
  costUsd := t.costUsd
  toolCalls := t.toolCalls
  updatedAt := t.updatedAt
  result := result.map TaskResult.output

/-- `ExecutionRead.model_validate`, with the tasks `execution.tasks` loads. -/
def Execution.modelValidate (x : Execution) (tasks : List TaskRead) : ExecutionRead where
  id := x.id
  userRequest := x.userRequest
  status := x.status
  finalResult := x.finalResult
  error := x.error
  startedAt := x.startedAt
  completedAt := x.completedAt
  durationMs := x.durationMs
  totalTokens := x.totalTokens
  costUsd := x.costUsd
  updatedAt := x.updatedAt
  tasks := tasks

/-! ## stream_execution_events -/

/-- What the generator yields. -/
inductive StreamEvent
  | update (payload : ExecutionRead)
  | done
  | error
  | keepalive
  deriving DecidableEq

/-- The point `event_stream` stands at. -/
inductive StreamPc
  /-- The head of the loop. -/
  | poll
  | getExecution
  | selectTasks (execution : Execution)
  /-- `model_validate` has read the results of the first tasks, and `rest` is still to come. -/
  | loadResults (execution : Execution) (rest : List Task) (reads : List TaskRead)
  | compare (payload : ExecutionRead)
  | yieldDone
  | closed

/-- The local variables of `event_stream`, and what it has yielded. -/
structure Stream where
  pc : StreamPc := .poll
  lastPayload : Option ExecutionRead := none
  events : List StreamEvent := []

namespace Stream

/-- The generator goes on at another point. -/
def goto (st : Stream) (pc : StreamPc) : Stream := { st with pc := pc }

/-- The generator yields, and goes on from there. -/
def yield (st : Stream) (event : StreamEvent) (pc : StreamPc) : Stream :=
  { st with events := st.events ++ [event], pc := pc }

/-- The next step of `event_stream`: a check of the clock, a SELECT, or a yield. -/
def step (executionId : ExecutionId) (timeUp : Bool) (db : Db) (st : Stream) : Option Stream :=
  match st.pc with
  | .poll => some (st.goto (if timeUp then .closed else .getExecution))
  | .getExecution =>
    match db.executions.find? executionId with
    | none => some (st.yield .error .closed)
    | some x => some (st.goto (.selectTasks x))
  | .selectTasks x => some (st.goto (.loadResults x (sortByIndex (db.tasksOf x.id)) []))
  | .loadResults x rest reads =>
    match rest with
    | [] => some (st.goto (.compare (x.modelValidate reads)))
    | t :: rest =>
      some (st.goto (.loadResults x rest (reads ++ [t.modelValidate (db.results.find? t.id)])))
  | .compare payload =>
    if some payload ≠ st.lastPayload then
      some
        { st.yield (.update payload) (if payload.status.isTerminal then .yieldDone else .poll) with
          lastPayload := some payload }
    else some (st.yield .keepalive .poll)
  | .yieldDone => some (st.yield .done .closed)
  | .closed => none

end Stream

/-! ## The stream beside the platform -/

/-- The platform and one stream. -/
structure Streaming where
  state : State := {}
  stream : Stream := {}

/-- What happens next: an event of the platform, or of the stream. -/
inductive StreamingEvent
  | platform (ev : Event)
  /-- The stream takes its next step. -/
  | stream (timeUp : Bool)

/-- Queue mode, and one stream of the execution's events. -/
def streaming (cfg : Config) (executionId : ExecutionId) : Lts Streaming StreamingEvent where
  init := {}
  step s
    | .platform ev => (s.state.step cfg ev).map fun state => { s with state := state }
    | .stream timeUp => (s.stream.step executionId timeUp s.state.db).map fun stream =>
      { s with stream := stream }

/-- The snapshot the event compares with the last one sent. -/
def observation (p : Streaming × StreamingEvent) : Option ExecutionRead :=
  match p.2, p.1.stream.pc with
  | .stream _, .compare payload => some payload
  | _, _ => none

/-- The snapshots of a run, in the order they were read. -/
def observed (trace : List (Streaming × StreamingEvent)) : List ExecutionRead :=
  trace.filterMap observation

/-- The payloads of the update events. -/
def Stream.updates (st : Stream) : List ExecutionRead :=
  st.events.filterMap fun
    | .update payload => some payload
    | _ => none

end AgenticExecution
