import AgenticExecution.Models

set_option autoImplicit false

/-! # Aggregator

`Aggregator.aggregate` builds the final result of an execution from its task outcomes. -/

namespace AgenticExecution

/-- `TaskOutcome`. -/
structure TaskOutcome where
  agentType : AgentType
  description : String
  status : TaskStatus
  output : String := ""
  error : String := ""

/-- The lines of one supporting outcome. -/
def supportingSection (outcome : TaskOutcome) : List String :=
  ["", "### " ++ outcome.agentType.value, strip outcome.output]

/-- `Aggregator.aggregate`. The headline is the first summarization outcome; the source removes it
    from the supporting ones by object identity, so exactly that one position goes. -/
def aggregate (_userRequest : String) (outcomes : List TaskOutcome) : String :=
  let completed := outcomes.filter fun o => o.status = .completed && o.output ≠ ""
  if completed = [] then "No results were produced."
  else
    let headline :=
      match completed.find? fun o => o.agentType = .summarization with
      | some summary => [strip summary.output]
      | none => []
    let supporting := completed.eraseP fun o => o.agentType = .summarization
    let supportingLines :=
      if supporting = [] then []
      else ["", "---", "Supporting work:"] ++ supporting.flatMap supportingSection
    strip (join "\n" (headline ++ supportingLines))

end AgenticExecution
