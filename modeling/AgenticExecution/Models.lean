import AgenticExecution.Planner
import AgenticExecution.Library.Double
import AgenticExecution.Library.Table

set_option autoImplicit false

/-! # Rows, settings and agent outputs

The columns of `executions`, `tasks` and `task_results` that the scheduler reads or writes, the
settings it consults, and the values an agent run hands back. Instants are seconds since the epoch;
durations and amounts of money are computed in doubles, as the program does. -/

namespace AgenticExecution

/-- `Execution.id`; UUIDs are numbered. -/
abbrev ExecutionId := Nat
/-- `Task.id`. -/
abbrev TaskId := Nat

/-- Seconds since the epoch. -/
abbrev Time := ℚ

/-- A row of `executions`. -/
structure Execution where
  id : ExecutionId
  userRequest : String
  status : ExecutionStatus := .pending
  finalResult : Option String := none
  error : Option String := none
  startedAt : Option Time := none
  completedAt : Option Time := none
  durationMs : Option Int := none
  totalTokens : Option Int := none
  costUsd : Option ℚ := none
  updatedAt : Time

/-- A row of `tasks`. -/
structure Task where
  id : TaskId
  executionId : ExecutionId
  agentType : AgentType
  description : String
  status : TaskStatus := .pending
  orderIndex : Int
  error : Option String := none
  dependsOn : List Int
  enqueued : Bool := false
  attempts : Nat := 0
  nextAttemptAt : Option Time := none
  startedAt : Option Time := none
  completedAt : Option Time := none
  durationMs : Option Int := none
  totalTokens : Option Int := none
  costUsd : Option ℚ := none
  toolCalls : Int := 0
  updatedAt : Time

/-- A row of `task_results`. -/
structure TaskResult where
  taskId : TaskId
  output : String

/-- A raised Python exception. -/
structure Exn where
  typeName : String
  message : String

/-- `f"{type(exc).__name__}: {exc}"`. -/
def Exn.describe (exc : Exn) : String := exc.typeName ++ ": " ++ exc.message

/-- `AgentOutput`. -/
structure AgentOutput where
  text : String
  promptTokens : Int := 0
  completionTokens : Int := 0
  totalTokens : Int := 0
  toolCalls : Int := 0
  model : String := ""

/-! ## Settings -/

/-- The settings the scheduler and the planner read. -/
structure Settings where
  plannerMinTasks : Int := 2
  plannerMaxTasks : Int := 5
  taskMaxRetries : Int := 3
  retryBackoffBaseSeconds : ℚ := 1
  retryBackoffMaxSeconds : ℚ := 30
  retryBackoffJitter : Bool := true
  taskLeaseSeconds : ℚ := 90

/-- What is fixed while the platform runs: the settings and the Python runtime. -/
structure Config where
  settings : Settings
  python : Python

/-- A draw of `random.uniform(0.8, 1.2)`. -/
structure Jitter where
  factor : ℚ
  lower : 4 / 5 ≤ factor
  upper : factor ≤ 6 / 5

theorem Jitter.lower_one : (4 / 5 : ℚ) ≤ 1 := by norm_num

theorem Jitter.upper_one : (1 : ℚ) ≤ 6 / 5 := by norm_num

/-- `_backoff`: `none` when it raises. The power is an exact integer; multiplying the float base by
    it raises `OverflowError` from `2 ** 1024` on, before the cap is applied. -/
def backoff (settings : Settings) (attempt : Nat) (jitter : Jitter) : Option ℚ :=
  if 1024 ≤ attempt - 1 then none
  else
    let delay := settings.retryBackoffBaseSeconds * 2 ^ (attempt - 1)
    let delay := min delay settings.retryBackoffMaxSeconds
    let delay := if settings.retryBackoffJitter then delay * jitter.factor else delay
    some (max 0 delay)

/-- `datetime.max`; adding a `timedelta` that goes past it raises `OverflowError`. -/
def datetimeMax : Time := 253402300799999999 / 1000000

/-- The `next_at` of `_retry_or_fail`: `none` when computing it raises. -/
def nextAttemptAt (settings : Settings) (attempt : Nat) (jitter : Jitter) (now : Time) :
    Option Time :=
  (backoff settings attempt jitter).bind fun delay =>
    if now + delay ≤ datetimeMax then some (now + delay) else none

/-! ## Durations and costs -/

/-- `(stop - start).total_seconds()`. -/
def totalSeconds (start stop : Time) : ℚ := Double.round (stop - start)

/-- `_ms_between`; `int` cuts the product off, which `max` leaves to matter above zero only. -/
def msBetween (start : Option Time) (stop : Time) : Option Int :=
  start.map fun t => max 0 ⌊Double.round (totalSeconds t stop * 1000)⌋

/-- `PRICING`: USD per 1000 prompt and completion tokens. -/
def pricing : List (String × ℚ × ℚ) :=
  [ ("mock-model", 5 / 10000, 15 / 10000),
    ("gpt-4o-mini", 15 / 100000, 6 / 10000),
    ("gpt-4o", 5 / 1000, 15 / 1000),
    ("gpt-4.1-mini", 4 / 10000, 16 / 10000),
    ("claude-3-5-sonnet-latest", 3 / 1000, 15 / 1000),
    ("claude-3-5-haiku-latest", 8 / 10000, 4 / 1000) ]

/-- What `tokens / 1000 * rate` computes; the rate is a literal of the table. -/
def tokenCost (tokens : Int) (rate : ℚ) : ℚ :=
  Double.round (Double.round (tokens / 1000) * Double.round rate)

/-- `estimate_cost`. -/
def estimateCost (model : String) (promptTokens completionTokens : Int) : ℚ :=
  let (promptRate, completionRate) := (pricing.lookup model).getD (0, 0)
  let cost := tokenCost promptTokens promptRate
  let cost := Double.round (cost + tokenCost completionTokens completionRate)
  Double.roundTo 6 cost

/-- The columns `_persist_success` writes beside the status. -/
structure Metrics where
  durationMs : Option Int
  totalTokens : Int
  costUsd : ℚ
  toolCalls : Int

/-- The metrics of a run that started at `startedAt` and returned `output`. -/
def AgentOutput.metrics (output : AgentOutput) (startedAt : Option Time) (now : Time) : Metrics where
  durationMs := msBetween startedAt now
  totalTokens := output.totalTokens
  costUsd := estimateCost output.model output.promptTokens output.completionTokens
  toolCalls := output.toolCalls

end AgenticExecution
