import AgenticExecution.PlanDependencies
import Mathlib.Logic.Relation
import Mathlib.Data.List.DropRight

set_option autoImplicit false

/-! # The shape of a plan

Whatever the planning model answers, every description of the plan has text in it and the dependency
graph is acyclic. The number of subtasks is what the answer supplies, or the three of the fallback, cut
to the maximum; the minimum is told to the planning model and not enforced. -/

namespace AgenticExecution

variable {planner : Planner} {py : Python} {userRequest text : String} {item : Json}
  {subtask subtask' : PlannedSubtask} {cs : List Char} {s : String} {i j : Nat}

/-! ## Stripped text -/

theorem rstripChars_eq_nil_iff : rstripChars cs = [] ↔ ∀ c ∈ cs, isSpace c = true := by
  rw [rstripChars, List.reverse_eq_nil_iff, List.dropWhile_eq_nil_iff]
  simp only [List.mem_reverse]

theorem stripChars_eq_nil_iff : stripChars cs = [] ↔ ∀ c ∈ cs, isSpace c = true := by
  rw [stripChars, rstripChars_eq_nil_iff]
  constructor
  · intro h c hc
    rw [← List.takeWhile_append_dropWhile (p := isSpace) (l := cs), List.mem_append] at hc
    rcases hc with hc | hc
    · exact List.mem_takeWhile_imp hc
    · exact h c hc
  · intro h c hc
    exact h c ((List.dropWhile_sublist isSpace).subset hc)

/-- Text is left when some character is not white space. -/
theorem strip_ne_empty_iff : strip s ≠ "" ↔ ∃ c ∈ s.toList, isSpace c = false := by
  rw [strip, ne_eq, String.ofList_eq_empty_iff, stripChars_eq_nil_iff]
  simp

/-- Stripping again leaves the text there. -/
theorem strip_strip_ne_empty (h : strip s ≠ "") : strip (strip s) ≠ "" := by
  intro hempty
  apply h
  rw [strip, String.ofList_eq_empty_iff] at hempty ⊢
  rw [strip, String.toList_ofList, stripChars_eq_nil_iff] at hempty
  rw [stripChars, rstripChars, List.reverse_eq_nil_iff]
  -- the front of the reversed text would have been dropped
  rw [← List.dropWhile_idempotent, List.dropWhile_eq_nil_iff]
  intro c hc
  exact hempty c (by rw [stripChars, rstripChars]; exact List.mem_reverse.2 hc)

/-! ## Descriptions -/

namespace Planner

theorem parseItem_description (h : parseItem py item = some subtask) :
    strip subtask.description ≠ "" := by
  cases item with
  | obj fields =>
      unfold parseItem at h
      dsimp only at h
      split_ifs at h with hempty
      obtain rfl := Option.some.inj h
      exact strip_strip_ne_empty hempty
  | _ => cases h

theorem parse_description (h : subtask ∈ parse py text) : strip subtask.description ≠ "" := by
  unfold parse at h
  split at h
  · obtain ⟨item, -, hparse⟩ := List.mem_filterMap.1 h
    exact parseItem_description hparse
  · cases h

theorem fallback_description (h : subtask ∈ fallback userRequest) :
    strip subtask.description ≠ "" := by
  rw [strip_ne_empty_iff]
  simp only [fallback, List.mem_cons, List.not_mem_nil, or_false] at h
  rcases h with rfl | rfl | rfl
  · exact ⟨'R', by simp, by decide⟩
  · exact ⟨'A', by simp, by decide⟩
  · exact ⟨'S', by simp, by decide⟩

/-- The subtasks before the cut. -/
def candidates (py : Python) (userRequest text : String) : List PlannedSubtask :=
  if parse py text = [] then fallback userRequest else parse py text

theorem candidates_description (h : subtask ∈ candidates py userRequest text) :
    strip subtask.description ≠ "" := by
  unfold candidates at h
  split at h
  · exact fallback_description h
  · exact parse_description h

theorem planSubtasks_eq (planner : Planner) (py : Python) (userRequest text : String) :
    planner.planSubtasks py userRequest text =
      assignDependencies ((candidates py userRequest text).take planner.maxTasks.toNat) := rfl

/-- A subtask of the plan is a candidate that was given its dependencies. -/
theorem getElem?_planSubtasks :
    (planner.planSubtasks py userRequest text)[i]? = some subtask ↔ i < planner.maxTasks.toNat ∧
      ∃ subtask₀, (candidates py userRequest text)[i]? = some subtask₀ ∧
        assignDependency i subtask₀ = subtask := by
  rw [planSubtasks_eq, assignDependencies, List.getElem?_mapIdx, Option.map_eq_some_iff,
    List.getElem?_take]
  split_ifs with hlt
  · simp [hlt]
  · simp [hlt]

theorem assignDependency_description (i : Nat) (subtask : PlannedSubtask) :
    (assignDependency i subtask).description = subtask.description := by
  unfold assignDependency
  split_ifs <;> rfl

theorem assignDependency_agentType (i : Nat) (subtask : PlannedSubtask) :
    (assignDependency i subtask).agentType = subtask.agentType := by
  unfold assignDependency
  split_ifs <;> rfl

theorem planSubtasks_description (h : subtask ∈ planner.planSubtasks py userRequest text) :
    strip subtask.description ≠ "" := by
  obtain ⟨i, hi⟩ := List.mem_iff_getElem?.1 h
  obtain ⟨-, subtask₀, hcandidate, rfl⟩ := getElem?_planSubtasks.1 hi
  rw [assignDependency_description]
  exact candidates_description (List.mem_of_getElem? hcandidate)

end Planner

/-! ## The dependency graph -/

namespace Plan

theorem DependsOn.lt {plan : Plan} (h : plan.DependsOn i j) : j < i := by
  obtain ⟨subtask, hsubtask, hmem⟩ := h
  have := (plan.backward i subtask hsubtask j hmem).2
  omega

/-- No subtask depends on itself, not even through others. -/
theorem acyclic (plan : Plan) (i : Nat) : ¬ Relation.TransGen plan.DependsOn i i := by
  have hlt : ∀ {k}, Relation.TransGen plan.DependsOn i k → k < i := by
    intro k h
    induction h with
    | single h => exact h.lt
    | tail _ h ih => exact Nat.lt_trans h.lt ih
  exact fun h => Nat.lt_irrefl i (hlt h)

end Plan

/-! ## The number of subtasks -/

namespace Planner

/-- An item a subtask is made of: an object whose description, printed, is not blank. -/
def usable (py : Python) : Json → Bool
  | .obj fields => strip (((fields.lookup "description").getD (.str "")).pyStr py) ≠ ""
  | _ => false

/-- How many such items the answer has; an answer that does not decode to an array has none. -/
def usableItems (py : Python) (text : String) : Nat :=
  match loadJson py text with
  | some (.arr items) => items.countP (usable py)
  | _ => 0

/-- The number of subtasks before the cut: the usable items of the answer, or the three of the
    fallback when there are none. -/
def supply (py : Python) (text : String) : Nat :=
  if usableItems py text = 0 then 3 else usableItems py text

theorem isSome_parseItem (py : Python) (item : Json) : (parseItem py item).isSome = usable py item := by
  cases item with
  | obj fields =>
      show (if _ then none else some _ : Option PlannedSubtask).isSome = decide (¬ _)
      split_ifs with hblank
      · exact (decide_eq_false (not_not.2 hblank)).symm
      · exact (decide_eq_true hblank).symm
  | _ => rfl

theorem length_parse (py : Python) (text : String) : (parse py text).length = usableItems py text := by
  unfold parse usableItems
  cases loadJson py text with
  | none => rfl
  | some decoded =>
      cases decoded with
      | arr items =>
          show (items.filterMap (parseItem py)).length = items.countP (usable py)
          rw [List.length_filterMap_eq_countP]
          exact List.countP_congr fun item _ => by rw [isSome_parseItem]
      | _ => rfl

theorem length_candidates (py : Python) (userRequest text : String) :
    (candidates py userRequest text).length = supply py text := by
  unfold candidates supply
  rw [← length_parse]
  by_cases h : parse py text = []
  · rw [if_pos h, if_pos (List.length_eq_zero_iff.2 h)]
    rfl
  · rw [if_neg h, if_neg fun hzero => h (List.length_eq_zero_iff.1 hzero)]

theorem one_le_supply (py : Python) (text : String) : 1 ≤ supply py text := by
  unfold supply
  split_ifs with h
  · decide
  · exact Nat.pos_of_ne_zero h

theorem length_planSubtasks (planner : Planner) (py : Python) (userRequest text : String) :
    ((planner.planSubtasks py userRequest text).length : Int) =
      min planner.maxTasks (supply py text) := by
  have := planner.one_le
  have := planner.min_le_max
  rw [planSubtasks_eq, assignDependencies, List.length_mapIdx, List.length_take, length_candidates]
  omega

/-- The plan stays within the bounds exactly if the supply reaches the minimum: it is cut to the maximum
    and never filled up. -/
theorem planSubtasks_size (minTasks maxTasks : Int) (py : Python) (userRequest text : String) :
    let planner := init minTasks maxTasks
    let n := (planner.planSubtasks py userRequest text).length
    ((planner.minTasks ≤ n ∧ n ≤ planner.maxTasks) ↔ planner.minTasks ≤ supply py text) ∧
      1 ≤ n ∧ n ≤ planner.maxTasks ∧ n = min planner.maxTasks (supply py text) := by
  intro planner n
  have hsize : (n : Int) = min planner.maxTasks (supply py text) :=
    planner.length_planSubtasks py userRequest text
  have hsupply := one_le_supply py text
  have hone := planner.one_le
  have hmax := planner.min_le_max
  refine ⟨?_, ?_, ?_, hsize⟩ <;> omega

/-- An answer with one usable item. -/
def oneItem : List Json := [describedItem "a" []]

/-- A text with one usable item. -/
def oneItemText : String := "[\x7b\"description\": \"a\", \"depends_on\": []\x7d]"

/-- With the default bounds the plan has one subtask, and with a minimum of four the fallback has
    three. -/
theorem planSubtasks_below_min :
    (((init 2 5).planSubtasks (decoding oneItemText oneItem) "q" oneItemText).length : Int) <
        (init 2 5).minTasks ∧
      (((init 4 5).planSubtasks (decoding oneItemText oneItem) "q" "no plan").length : Int) <
        (init 4 5).minTasks := by
  decide +kernel

end Planner

end AgenticExecution
