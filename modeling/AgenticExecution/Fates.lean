import AgenticExecution.Aggregator
import AgenticExecution.Library.InOrder

set_option autoImplicit false

/-! # Fates

What the platform is for, without queue, handlers and clock: every task of a plan meets a fate, and so
the execution has an outcome. A task is skipped unless all its dependencies completed; otherwise its
agent runs on their outputs until it answers or the retries are used up. Dependencies point backward,
so the fates are computed in the order of the plan, whatever order the tasks ran in. -/

namespace AgenticExecution

deriving instance DecidableEq for PlannedSubtask

/-! ## Agents -/

/-- What the tables keep of an agent's output, its cost apart. -/
structure AgentResult where
  text : String
  totalTokens : Int
  toolCalls : Int
  deriving DecidableEq

/-- What is kept of an answer: nothing when the agent raised or timed out. -/
def agentResult? : Except Exn AgentOutput → Option AgentResult
  | .ok output => some ⟨output.text, output.totalTokens, output.toolCalls⟩
  | .error _ => none

/-- Agents whose answer only depends on the position of the task, its subtask, the number of the attempt
    and the context. -/
abbrev Agents := Int → PlannedSubtask → Nat → String → Option AgentResult

/-! ## The fate of a task -/

/-- What becomes of a task, in every schedule. -/
inductive Fate
  /-- A dependency did not complete. -/
  | skipped
  /-- All attempts failed. -/
  | failed (attempts : Nat)
  /-- The agent answered after `attempts` failed runs. -/
  | completed (attempts : Nat) (result : AgentResult)
  deriving DecidableEq

/-- Run the agent once more after `attempts` failed runs, and then as long as it fails, up to `retries`
    times. -/
def attemptsFrom (run : Nat → Option AgentResult) : (retries attempts : Nat) → Fate
  | 0, attempts =>
    match run (attempts + 1) with
    | some result => .completed attempts result
    | none => .failed (attempts + 1)
  | retries + 1, attempts =>
    match run (attempts + 1) with
    | some result => .completed attempts result
    | none => attemptsFrom run retries (attempts + 1)

/-- The entry of a task in the context of the tasks that depend on it. -/
def contextPart? : PlannedSubtask × Fate → Option String
  | (subtask, .completed _ result) => some ("[" ++ subtask.agentType.value ++ "] " ++ result.text)
  | (_, .skipped) | (_, .failed _) => none

/-- The context of a task with the given dependencies, if they all completed. -/
def contextOf? (done : List (PlannedSubtask × Fate)) (dependsOn : List Int) : Option String :=
  (dependsOn.mapM fun i => (done[i.toNat]?).bind contextPart?).map (join "\n\n")

/-- The fate of the next task, after the earlier ones met theirs. -/
def fateOf (agent : Agents) (retries : Nat) (done : List (PlannedSubtask × Fate))
    (subtask : PlannedSubtask) : Fate :=
  match contextOf? done subtask.dependsOn with
  | none => .skipped
  | some context => attemptsFrom (fun n => agent done.length subtask n context) retries 0

/-- The subtasks of a plan with their fates. -/
def fates (agent : Agents) (retries : Nat) (subtasks : List PlannedSubtask) :
    List (PlannedSubtask × Fate) :=
  InOrder.eval (fun done subtask => (subtask, fateOf agent retries done subtask)) subtasks

/-! ## What the tables record -/

/-- The row of a finished task with its stored result. -/
structure Report where
  status : TaskStatus
  attempts : Nat
  output : Option String
  totalTokens : Option Int
  toolCalls : Int
  deriving DecidableEq

/-- What the row of the task reports then. -/
def Fate.report : Fate → Report
  | .skipped => ⟨.failed, 0, none, none, 0⟩
  | .failed attempts => ⟨.failed, attempts, none, none, 0⟩
  | .completed attempts result =>
    ⟨.completed, attempts, some result.text, some result.totalTokens, result.toolCalls⟩

/-- What the row of a finished execution records. -/
structure Outcome where
  status : ExecutionStatus
  finalResult : Option String
  totalTokens : Option Int
  deriving DecidableEq

/-- What `_finalize` hands to the aggregator for it. -/
def taskOutcome (p : PlannedSubtask × Report) : TaskOutcome where
  agentType := p.1.agentType
  description := p.1.description
  status := p.2.status
  output := p.2.output.getD ""

/-- The outcome of an execution whose tasks ended with the given reports. -/
def outcomeOf (userRequest : String) (reports : List (PlannedSubtask × Report)) : Outcome where
  status := if reports.all fun p => p.2.status = .completed then .completed else .failed
  finalResult :=
    if reports.all fun p => p.2.status = .completed then
      some (aggregate userRequest (reports.map taskOutcome))
    else none
  totalTokens := some (reports.map fun p => p.2.totalTokens.getD 0).sum

/-! ## Facts -/

variable {agent : Agents} {retries : Nat} {run : Nat → Option AgentResult} {attempts n : Nat}

/-- The first answer within the retries decides. -/
theorem attemptsFrom_completed {result : AgentResult} (hle : attempts ≤ n) (hn : n ≤ attempts + retries)
    (hfail : ∀ m, attempts ≤ m → m < n → run (m + 1) = none) (hrun : run (n + 1) = some result) :
    attemptsFrom run retries attempts = .completed n result := by
  induction retries generalizing attempts with
  | zero =>
      obtain rfl : n = attempts := by omega
      rw [attemptsFrom, hrun]
  | succ retries ih =>
      rw [attemptsFrom]
      by_cases heq : n = attempts
      · rw [← heq, hrun]
      · rw [hfail attempts (Nat.le_refl _) (by omega)]
        exact ih (by omega) (by omega) fun m hm => hfail m (by omega)

theorem attemptsFrom_failed (hfail : ∀ m, attempts ≤ m → m ≤ attempts + retries → run (m + 1) = none) :
    attemptsFrom run retries attempts = .failed (attempts + retries + 1) := by
  induction retries generalizing attempts with
  | zero => rw [attemptsFrom, hfail attempts (Nat.le_refl _) (Nat.le_refl _)]
  | succ retries ih =>
      rw [attemptsFrom, hfail attempts (Nat.le_refl _) (by omega)]
      show attemptsFrom run retries (attempts + 1) = _
      rw [ih fun m hm hm' => hfail m (by omega) (by omega)]
      congr 1
      omega

theorem contextOf?_eq_some_iff {done : List (PlannedSubtask × Fate)} {dependsOn : List Int}
    {context : String} : contextOf? done dependsOn = some context ↔
      ∃ parts, List.Forall₂ (fun i part => (done[i.toNat]?).bind contextPart? = some part)
        dependsOn parts ∧ context = join "\n\n" parts := by
  rw [contextOf?, Option.map_eq_some_iff]
  refine exists_congr fun parts => ?_
  rw [InOrder.mapM_eq_some_iff, eq_comm (a := context)]

theorem length_fates (subtasks : List PlannedSubtask) :
    (fates agent retries subtasks).length = subtasks.length := InOrder.length_eval subtasks

theorem getElem?_fates {subtasks : List PlannedSubtask} {i : Nat} {subtask : PlannedSubtask}
    (h : subtasks[i]? = some subtask) :
    (fates agent retries subtasks)[i]? =
      some (subtask, fateOf agent retries ((fates agent retries subtasks).take i) subtask) := by
  rw [fates, InOrder.getElem?_eval h, InOrder.take_eval]

end AgenticExecution
