import AgenticExecution.Text

set_option autoImplicit false

/-! # Execution, task and agent enumerations, and decoded JSON

The statuses are stored as their string values; the program only ever compares and replaces them, so
they are inductive types here. -/

namespace AgenticExecution

/-- `ExecutionStatus`. -/
inductive ExecutionStatus
  | pending | planning | running | completed | failed
  deriving DecidableEq, Repr

/-- `TaskStatus`. -/
inductive TaskStatus
  | pending | running | retrying | completed | failed
  deriving DecidableEq, Repr

/-- `AgentType`. -/
inductive AgentType
  | research | analysis | summarization
  deriving DecidableEq, Repr

/-- A task that no handler picks up again. -/
def TaskStatus.isTerminal : TaskStatus → Bool
  | .completed | .failed => true
  | .pending | .running | .retrying => false

/-- A finished execution (`_TERMINAL`). -/
def ExecutionStatus.isTerminal : ExecutionStatus → Bool
  | .completed | .failed => true
  | .pending | .planning | .running => false

/-- `ExecutionStatus.value`. -/
def ExecutionStatus.value : ExecutionStatus → String
  | .pending => "PENDING"
  | .planning => "PLANNING"
  | .running => "RUNNING"
  | .completed => "COMPLETED"
  | .failed => "FAILED"

/-- `TaskStatus.value`. -/
def TaskStatus.value : TaskStatus → String
  | .pending => "PENDING"
  | .running => "RUNNING"
  | .retrying => "RETRYING"
  | .completed => "COMPLETED"
  | .failed => "FAILED"

/-- `AgentType.value`. -/
def AgentType.value : AgentType → String
  | .research => "research"
  | .analysis => "analysis"
  | .summarization => "summarization"

/-- What `json.loads` returns. A float keeps its printed form, the only thing the program uses. -/
inductive Json
  | null
  | bool (b : Bool)
  | int (n : Int)
  | float (printed : String)
  | str (s : String)
  | arr (items : List Json)
  | obj (fields : List (String × Json))

/-- The parts of the Python runtime the planner depends on: `json.loads` (`none` when it raises) and
    the printed form of a list or dict. -/
structure Python where
  loads : String → Option Json
  repr : Json → String

/-- `bool(value)`. -/
def Json.truthy : Json → Bool
  | .null => false
  | .bool b => b
  | .int n => n ≠ 0
  | .float printed => printed ≠ "0.0" && printed ≠ "-0.0"
  | .str s => s ≠ ""
  | .arr items => !items.isEmpty
  | .obj fields => !fields.isEmpty

/-- `str(value)`. -/
def Json.pyStr (py : Python) : Json → String
  | .null => "None"
  | .bool true => "True"
  | .bool false => "False"
  | .int n => toString n
  | .float printed => printed
  | .str s => s
  | j => py.repr j

/-- `value` when `isinstance(value, int)`. A boolean is an `int` in Python and equals 0 or 1 wherever
    a dependency is compared or looked up. -/
def Json.asInt? : Json → Option Int
  | .int n => some n
  | .bool b => some (if b then 1 else 0)
  | _ => none

/-- `AgentType.from_value`. -/
def AgentType.fromValue (py : Python) : Json → AgentType
  | .null => .research
  | value =>
    match lower (strip (value.pyStr py)) with
    | "research" => .research
    | "analysis" => .analysis
    | "summarization" => .summarization
    | "researcher" => .research
    | "search" => .research
    | "analyze" => .analysis
    | "analyst" => .analysis
    | "analytics" => .analysis
    | "summary" => .summarization
    | "summarize" => .summarization
    | "summarizer" => .summarization
    | _ => .research

end AgenticExecution
