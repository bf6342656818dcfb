import AgenticExecution.Enums
import Mathlib.Data.List.Basic
import Mathlib.Order.Basic

set_option autoImplicit false

/-! # Planner

`Planner.plan` turns the text of the planning model into subtasks: decode it, possibly out of the
prose around it, keep the usable items, fall back to a fixed plan when there are none, cut to the
configured maximum, and assign dependencies. Whatever the text, the result is a `Plan`: not empty,
and every dependency points to an earlier subtask. -/

namespace AgenticExecution

/-- `PlannedSubtask`. -/
structure PlannedSubtask where
  agentType : AgentType
  description : String
  dependsOn : List Int := []

/-- A plan the scheduler can run: some subtask, and dependencies on earlier positions only. -/
structure Plan where
  subtasks : List PlannedSubtask
  ne_nil : subtasks ≠ []
  backward : ∀ (i : Nat) s, subtasks[i]? = some s → ∀ d ∈ s.dependsOn, 0 ≤ d ∧ d < (i : Int)

/-- The bounds a `Planner` works with, as its constructor normalises them. -/
structure Planner where
  minTasks : Int
  maxTasks : Int
  one_le : 1 ≤ minTasks
  min_le_max : minTasks ≤ maxTasks

namespace Planner

/-- `Planner.__init__`. -/
def init (minTasks maxTasks : Int) : Planner where
  minTasks := max 1 minTasks
  maxTasks := max (max 1 minTasks) maxTasks
  one_le := Int.le_max_left _ _
  min_le_max := Int.le_max_left _ _

/-- The text `_JSON_ARRAY_RE` finds: from the first `[` to the last `]` after it. -/
def searchArray (text : List Char) : Option (List Char) :=
  let fromOpen := text.dropWhile (· ≠ '[')
  let toClose := (fromOpen.reverse.dropWhile (· ≠ ']')).reverse
  if toClose.isEmpty then none else some toClose

/-- `Planner._load_json`. -/
def loadJson (py : Python) (text : String) : Option Json :=
  if text = "" then none
  else
    match py.loads text with
    | some j => some j
    | none =>
      match searchArray text.toList with
      | some array => py.loads (String.ofList array)
      | none => none

/-- One item of the decoded array (the body of the loop of `Planner._parse`). -/
def parseItem (py : Python) : Json → Option PlannedSubtask
  | .obj fields =>
    let description := strip (((fields.lookup "description").getD (.str "")).pyStr py)
    if description = "" then none
    else
      some
        { agentType := AgentType.fromValue py ((fields.lookup "agent_type").getD (.str "research"))
          description := description
          dependsOn :=
            match fields.lookup "depends_on" with
            | some (.arr raw) => raw.filterMap Json.asInt?
            | _ => [] }
  | _ => none

/-- `Planner._parse`. -/
def parse (py : Python) (text : String) : List PlannedSubtask :=
  match loadJson py text with
  | some (.arr items) => items.filterMap (parseItem py)
  | _ => []

/-- The shortened request of `Planner._fallback`. -/
def snippet (userRequest : String) : String :=
  let text := join " " ((splitWords userRequest.toList).map String.ofList)
  if 160 < text.length then String.ofList (rstripChars (text.toList.take 159)) ++ "\u2026" else text

/-- `Planner._fallback`. -/
def fallback (userRequest : String) : List PlannedSubtask :=
  [ { agentType := .research
      description := "Research and gather relevant information for: " ++ snippet userRequest },
    { agentType := .analysis
      description :=
        "Analyze the gathered information and identify key insights for: " ++ snippet userRequest },
    { agentType := .summarization
      description :=
        "Summarize the findings into a clear final answer for: " ++ snippet userRequest } ]

/-- The dependencies `Planner._assign_dependencies` gives the subtask at position `index`. -/
def assignDependency (index : Nat) (subtask : PlannedSubtask) : PlannedSubtask :=
  if subtask.dependsOn ≠ [] then
    { subtask with dependsOn := subtask.dependsOn.filter fun d => decide (0 ≤ d) && decide (d < index) }
  else if subtask.agentType = .summarization then
    { subtask with dependsOn := (List.range index).map Int.ofNat }
  else
    { subtask with dependsOn := [] }

/-- `Planner._assign_dependencies`. -/
def assignDependencies (subtasks : List PlannedSubtask) : List PlannedSubtask :=
  subtasks.mapIdx assignDependency

/-- The subtasks `Planner.plan` returns when the planning model answers `text`. -/
def planSubtasks (planner : Planner) (py : Python) (userRequest text : String) :
    List PlannedSubtask :=
  let parsed := parse py text
  let subtasks := if parsed = [] then fallback userRequest else parsed
  assignDependencies (subtasks.take planner.maxTasks.toNat)

/-! ## Every answer of the planning model gives a runnable plan -/

theorem assignDependency_backward (index : Nat) (subtask : PlannedSubtask) :
    ∀ d ∈ (assignDependency index subtask).dependsOn, 0 ≤ d ∧ d < index := by
  intro d hd
  unfold assignDependency at hd
  split at hd
  · simpa using (List.mem_filter.1 hd).2
  · split at hd
    · obtain ⟨n, hn, rfl⟩ := List.mem_map.1 hd
      have := List.mem_range.1 hn
      simp only [Int.ofNat_eq_natCast]
      omega
    · simp at hd

theorem planSubtasks_ne_nil (planner : Planner) (py : Python) (userRequest text : String) :
    planner.planSubtasks py userRequest text ≠ [] := by
  have hmax : planner.maxTasks.toNat ≠ 0 := by
    have := planner.one_le
    have := planner.min_le_max
    omega
  have hne : (if parse py text = [] then fallback userRequest else parse py text) ≠ [] := by
    split
    · simp [fallback]
    · next h => exact h
  simp only [planSubtasks, assignDependencies, ne_eq, List.mapIdx_eq_nil_iff, List.take_eq_nil_iff,
    not_or]
  exact ⟨hmax, hne⟩

theorem planSubtasks_backward (planner : Planner) (py : Python) (userRequest text : String) (i : Nat)
    (s : PlannedSubtask) (hs : (planner.planSubtasks py userRequest text)[i]? = some s) :
    ∀ d ∈ s.dependsOn, 0 ≤ d ∧ d < i := by
  simp only [planSubtasks, assignDependencies, List.getElem?_mapIdx, Option.map_eq_some_iff] at hs
  obtain ⟨s₀, -, rfl⟩ := hs
  exact assignDependency_backward i s₀

/-- `Planner.plan`, given the text the planning model answered with. -/
def plan (planner : Planner) (py : Python) (userRequest text : String) : Plan where
  subtasks := planner.planSubtasks py userRequest text
  ne_nil := planner.planSubtasks_ne_nil py userRequest text
  backward := planner.planSubtasks_backward py userRequest text

end Planner

end AgenticExecution
