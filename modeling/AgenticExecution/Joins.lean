import AgenticExecution.Dependencies
import AgenticExecution.Planning
import AgenticExecution.PlanShape

set_option autoImplicit false

/-! # The join of a summarization task

A summarization subtask depends on everything before it when the planning model supplies no dependencies
for it. `Planner._assign_dependencies` asks whether a list was supplied before it drops the numbers that
point nowhere, so a list of such numbers alone takes the join away: the subtask keeps no dependency and
starts with the first ones. -/

namespace AgenticExecution

variable {cfg : Config} {planner : Planner} {py : Python} {userRequest text : String}
  {subtask subtask₀ : PlannedSubtask} {i : Nat} {e : ExecutionId} {s : State}

namespace Planner

/-- The integers the planning model supplied as dependencies of the subtask at position `i`. -/
def supplied (py : Python) (text : String) (i : Nat) : List Int :=
  ((parse py text)[i]?.map PlannedSubtask.dependsOn).getD []

/-- One of the numbers is an earlier position. -/
def NamesEarlier (i : Nat) (ds : List Int) : Prop := ∃ d ∈ ds, 0 ≤ d ∧ d < (i : Int)

/-- The summarization subtasks without a supplied dependency on an earlier position join everything
    before them, and do not start before it has completed. -/
structure Joins (cfg : Config) (planner : Planner) (userRequest text : String) : Prop where
  edges : ∀ (i : Nat) subtask, (planner.plan cfg.python userRequest text).subtasks[i]? = some subtask →
    subtask.agentType = .summarization → ¬ NamesEarlier i (supplied cfg.python text i) →
      subtask.dependsOn = (List.range i).map Int.ofNat
  order : ∀ (E : State → Event → Prop) (s : State) (e : ExecutionId), (queueMode cfg).Reachable E s →
    s.db.Plans e (planner.plan cfg.python userRequest text) →
    ∀ t ∈ s.db.tasksOf e, t.agentType = .summarization →
      ¬ NamesEarlier t.orderIndex.toNat (supplied cfg.python text t.orderIndex.toNat) →
      t.status = .running ∨ t.status = .retrying ∨ t.status = .completed →
        ∀ t' ∈ s.db.tasksOf e, t'.orderIndex < t.orderIndex → t'.status = .completed

theorem candidates_dependsOn (h : (candidates py userRequest text)[i]? = some subtask₀) :
    subtask₀.dependsOn = supplied py text i := by
  unfold candidates at h
  unfold supplied
  split_ifs at h with hnil
  · have hfallback : ∀ s ∈ fallback userRequest, s.dependsOn = [] := by simp [fallback]
    rw [hfallback _ (List.mem_of_getElem? h), hnil]
    rfl
  · rw [h]
    rfl

/-- What becomes of a summarization subtask for which no earlier position is named. -/
theorem assignDependency_joins_iff (hsum : subtask₀.agentType = .summarization)
    (hnone : ¬ NamesEarlier i subtask₀.dependsOn) :
    (assignDependency i subtask₀).dependsOn = (List.range i).map Int.ofNat ↔
      (0 < i → subtask₀.dependsOn = []) := by
  unfold assignDependency
  split_ifs with hne
  · have hfilter : (subtask₀.dependsOn.filter fun d => decide (0 ≤ d) && decide (d < (i : Int))) = [] := by
      refine List.filter_eq_nil_iff.2 fun d hd => ?_
      simpa using fun h0 => not_lt.1 fun hlt => hnone ⟨d, hd, h0, hlt⟩
    show List.filter _ _ = _ ↔ _
    rw [hfilter, eq_comm, List.map_eq_nil_iff, List.range_eq_nil]
    constructor
    · rintro rfl hpos
      exact absurd hpos (Nat.lt_irrefl 0)
    · intro h
      by_contra hi
      exact hne (h (Nat.pos_of_ne_zero hi))
  · exact iff_of_true rfl fun _ => not_not.1 hne

end Planner

/-- A task with an edge to every earlier position starts after all tasks before it. -/
theorem Inv.joined_completed {plan : Plan} (h : Inv s) (hplans : s.db.Plans e plan)
    {t t' : Task} (ht : t ∈ s.db.tasksOf e) (ht' : t' ∈ s.db.tasksOf e)
    (hall : t.dependsOn = (List.range t.orderIndex.toNat).map Int.ofNat)
    (hs : t.status = .running ∨ t.status = .retrying ∨ t.status = .completed)
    (hlt : t'.orderIndex < t.orderIndex) : t'.status = .completed := by
  obtain ⟨hmem, he⟩ := Db.mem_tasksOf.1 ht
  obtain ⟨hmem', he'⟩ := Db.mem_tasksOf.1 ht'
  obtain ⟨j, hj⟩ := List.mem_iff_getElem?.1 ht'
  have hidx := (hplans.row hj).1
  refine h.dependency_completed hmem hs hmem' ⟨he'.trans he.symm, ?_⟩
  rw [hall, hidx]
  exact List.mem_map.2 ⟨j, List.mem_range.2 (by omega), rfl⟩

namespace Planner

/-- A candidate with supplied dependencies is an item of the answer. -/
theorem getElem?_parse_of_candidate (hcandidate : (candidates py userRequest text)[i]? = some subtask₀)
    (hne : subtask₀.dependsOn ≠ []) : (parse py text)[i]? = some subtask₀ := by
  rw [candidates_dependsOn hcandidate] at hne
  unfold candidates at hcandidate
  split_ifs at hcandidate with hnil
  · exact absurd (by simp [supplied, hnil]) hne
  · exact hcandidate

/-- The summaries of the answer that supply numbers name an earlier position. -/
def Supplies (planner : Planner) (py : Python) (text : String) : Prop :=
  ∀ (i : Nat) item, (parse py text)[i]? = some item → (i : Int) < planner.maxTasks →
    item.agentType = .summarization → 0 < i → item.dependsOn ≠ [] → NamesEarlier i item.dependsOn

theorem edges_of_supplies (h : planner.Supplies py text)
    (hsubtask : (planner.planSubtasks py userRequest text)[i]? = some subtask)
    (hsum : subtask.agentType = .summarization) (hnone : ¬ NamesEarlier i (supplied py text i)) :
    subtask.dependsOn = (List.range i).map Int.ofNat := by
  obtain ⟨hlt, subtask₀, hcandidate, rfl⟩ := getElem?_planSubtasks.1 hsubtask
  rw [assignDependency_agentType] at hsum
  rw [← candidates_dependsOn hcandidate] at hnone
  refine (assignDependency_joins_iff hsum hnone).2 fun hpos => ?_
  by_contra hne
  exact hnone (h i subtask₀ (getElem?_parse_of_candidate hcandidate hne) (by omega) hsum hpos hne)

theorem supplies_of_edges (h : planner.Joins cfg userRequest text) :
    planner.Supplies cfg.python text := by
  intro i item hitem hlt hsum hpos hne
  by_contra hnone
  have hcandidate : (candidates cfg.python userRequest text)[i]? = some item := by
    unfold candidates
    rw [if_neg fun hnil => by simp [hnil] at hitem]
    exact hitem
  have hsubtask : (planner.plan cfg.python userRequest text).subtasks[i]? =
      some (assignDependency i item) :=
    getElem?_planSubtasks.2 ⟨by omega, item, hcandidate, rfl⟩
  have hedges := h.edges i _ hsubtask ((assignDependency_agentType i item).trans hsum)
  rw [← candidates_dependsOn hcandidate] at hedges
  exact hne ((assignDependency_joins_iff hsum hnone).1 (hedges hnone) hpos)

/-- The join is made exactly if no summarization item at a later position than the first supplies
    numbers of which none is an earlier position. -/
theorem joins_iff (cfg : Config) (planner : Planner) (userRequest text : String) :
    planner.Joins cfg userRequest text ↔
      ∀ (i : Nat) item, (parse cfg.python text)[i]? = some item → (i : Int) < planner.maxTasks →
        item.agentType = .summarization → 0 < i → item.dependsOn ≠ [] →
          NamesEarlier i item.dependsOn := by
  refine ⟨supplies_of_edges, fun h => ⟨fun i subtask => edges_of_supplies h, ?_⟩⟩
  intro E s e hreach hplans t ht hsum hnone hs t' ht' hlt
  obtain ⟨i, hi⟩ := List.mem_iff_getElem?.1 ht
  obtain ⟨hidx, hsubtask⟩ := hplans.row hi
  have hnat : t.orderIndex.toNat = i := by omega
  rw [hnat] at hnone
  have hall : t.dependsOn = (List.range t.orderIndex.toNat).map Int.ofNat := by
    rw [hnat]
    exact edges_of_supplies h hsubtask hsum hnone
  exact (reachable_inv hreach).joined_completed hplans ht ht' hall hs hlt

/-- The item `{"agent_type": "summarization", "description": d, "depends_on": dependsOn}`. -/
def summaryItem (d : String) (dependsOn : List Json) : Json :=
  .obj [("agent_type", .str "summarization"), ("description", .str d), ("depends_on", .arr dependsOn)]

/-- A research task and a summary that names a position behind itself. -/
def forwardItems : List Json := [describedItem "a" [], summaryItem "b" [.int 5]]

/-- A summary that depends on a task that does not exist. -/
def forwardText : String :=
  "[\x7b\"description\": \"a\", \"depends_on\": []\x7d, " ++
    "\x7b\"agent_type\": \"summarization\", \"description\": \"b\", \"depends_on\": [5]\x7d]"

/-- The planner with that answer. -/
def forwardConfig : Config where
  settings := {}
  python := decoding forwardText forwardItems

/-- The summary is left without a dependency. -/
theorem forwardItems_not_joined :
    ¬ (init 2 5).Joins forwardConfig "q" forwardText ∧
      ((init 2 5).plan forwardConfig.python "q" forwardText).subtasks[1]? =
        some { agentType := .summarization, description := "b", dependsOn := [] } := by
  have hplan : ((init 2 5).plan forwardConfig.python "q" forwardText).subtasks[1]? =
      some { agentType := .summarization, description := "b", dependsOn := [] } := by rfl
  refine ⟨fun h => ?_, hplan⟩
  have hsupplied : supplied forwardConfig.python forwardText 1 = [5] := by rfl
  have hnone : ¬ NamesEarlier 1 (supplied forwardConfig.python forwardText 1) := by
    rw [hsupplied]
    rintro ⟨d, hd, -, hlt⟩
    obtain rfl := List.mem_singleton.1 hd
    exact absurd hlt (by decide)
  exact absurd (h.edges 1 _ hplan rfl hnone) (by decide)

end Planner

end AgenticExecution
