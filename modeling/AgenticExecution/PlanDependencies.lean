import AgenticExecution.Planner
import Mathlib.Data.Int.CharZero
import Mathlib.Data.List.Pairwise

set_option autoImplicit false

/-! # The dependencies the planning model supplies

An item of the planning model's array names its dependencies by their positions in that array.
`Planner._parse` drops the items it cannot use, and `Planner._assign_dependencies` reads the numbers as
positions among the items that are left, so behind a dropped item an edge may get lost or join the
wrong subtasks. -/

namespace AgenticExecution

variable {planner : Planner} {py : Python} {userRequest text : String} {items : List Json}
  {i j p q : Nat} {item item' : Json} {subtask : PlannedSubtask}

/-- The integers in the item's `depends_on` list. -/
def Json.dependsOn : Json → List Int
  | .obj fields =>
    match fields.lookup "depends_on" with
    | some (.arr raw) => raw.filterMap Json.asInt?
    | _ => []
  | _ => []

/-- The subtask at position `i` depends on the one at position `j`. -/
def Plan.DependsOn (plan : Plan) (i j : Nat) : Prop :=
  ∃ subtask, plan.subtasks[i]? = some subtask ∧ (j : Int) ∈ subtask.dependsOn

namespace Planner

/-- The items that survive parsing and the cut, each with its position in the array. -/
def survivors (planner : Planner) (py : Python) (items : List Json) : List (Json × Nat) :=
  (items.zipIdx.filter fun p => (parseItem py p.1).isSome).take planner.maxTasks.toNat

/-- The survivor at position `i` is `item`, which stands at position `p` of the array. -/
def Survives (planner : Planner) (py : Python) (items : List Json) (i p : Nat) (item : Json) : Prop :=
  (planner.survivors py items)[i]? = some (item, p)

/-- The edges of the plan are the dependencies the items name, but for the summarization tasks whose
    items name none. -/
structure Respects (planner : Planner) (py : Python) (items : List Json) (plan : Plan) : Prop where
  kept : ∀ i j p q item item', planner.Survives py items i p item →
    planner.Survives py items j q item' → q < p → (q : Int) ∈ item.dependsOn → plan.DependsOn i j
  only : ∀ i j p q item item', planner.Survives py items i p item →
    planner.Survives py items j q item' → plan.DependsOn i j →
      (q < p ∧ (q : Int) ∈ item.dependsOn) ∨
        (item.dependsOn = [] ∧
          ∃ subtask, plan.subtasks[i]? = some subtask ∧ subtask.agentType = .summarization)

/-- An item names an earlier survivor by its position in the array exactly if it names that survivor's
    position among the survivors. -/
def PositionsAgree (planner : Planner) (py : Python) (items : List Json) : Prop :=
  ∀ i j p q item item', planner.Survives py items i p item → planner.Survives py items j q item' →
    q < p → ((q : Int) ∈ item.dependsOn ↔ (j : Int) ∈ item.dependsOn)

theorem parseItem_dependsOn (h : parseItem py item = some subtask) :
    subtask.dependsOn = item.dependsOn := by
  cases item with
  | obj fields =>
      unfold parseItem at h
      dsimp only at h
      split_ifs at h
      obtain rfl := Option.some.inj h
      rfl
  | _ => cases h

theorem Survives.parsed (h : planner.Survives py items i p item) :
    ∃ subtask, parseItem py item = some subtask := by
  have hmem := List.mem_of_mem_take (List.mem_of_getElem? h)
  exact Option.isSome_iff_exists.1 (List.mem_filter.1 hmem).2

theorem survivors_sorted (planner : Planner) (py : Python) (items : List Json) :
    (planner.survivors py items).Pairwise fun a b => a.2 < b.2 := by
  refine List.Pairwise.sublist ((List.take_sublist _ _).trans List.filter_sublist) ?_
  apply List.pairwise_map.1
  rw [List.zipIdx_map_snd]
  exact List.pairwise_lt_range'

/-- The survivors stand in the order of the array. -/
theorem Survives.lt_iff (hi : planner.Survives py items i p item)
    (hj : planner.Survives py items j q item') : q < p ↔ j < i := by
  have hmono : ∀ {i j p q item item'}, planner.Survives py items i p item →
      planner.Survives py items j q item' → j < i → q < p := by
    intro i j p q item item' hi hj hlt
    obtain ⟨hi, hip⟩ := List.getElem?_eq_some_iff.1 hi
    obtain ⟨hj, hjq⟩ := List.getElem?_eq_some_iff.1 hj
    have := List.pairwise_iff_getElem.1 (planner.survivors_sorted py items) j i hj hi hlt
    rwa [hip, hjq] at this
  refine ⟨fun hlt => ?_, hmono hi hj⟩
  rcases Nat.lt_trichotomy j i with h | rfl | h
  · exact h
  · obtain ⟨-, rfl⟩ := Prod.mk.inj (Option.some.inj (hi.symm.trans hj))
    exact absurd hlt (Nat.lt_irrefl _)
  · exact absurd hlt (Nat.lt_asymm (hmono hj hi h))

theorem getElem?_filterMap {α β : Type} (f : α → Option β) (l : List α) (i : Nat) :
    (l.filterMap f)[i]? = ((l.filter fun a => (f a).isSome)[i]?).bind f := by
  induction l generalizing i with
  | nil => rfl
  | cons a l ih =>
      cases h : f a with
      | none => simp [h, ih]
      | some b =>
          cases i with
          | zero => simp [h]
          | succ i => simp [h, ih]

/-- The subtask at position `i` is built from the survivor at position `i`. -/
theorem Survives.plan_subtask (hload : loadJson py text = some (.arr items))
    (hi : planner.Survives py items i p item) (hparse : parseItem py item = some subtask) :
    (planner.plan py userRequest text).subtasks[i]? = some (assignDependency i subtask) := by
  have hparsed : parse py text = items.zipIdx.filterMap fun p => parseItem py p.1 := by
    rw [parse, hload]
    show items.filterMap (parseItem py) = _
    conv_lhs => rw [← List.zipIdx_map_fst 0 items, List.filterMap_map]
    rfl
  have hcut : ((parse py text).take planner.maxTasks.toNat)[i]? = some subtask := by
    unfold Survives survivors at hi
    rw [List.getElem?_take] at hi ⊢
    split_ifs at hi ⊢ with hlt
    rw [hparsed, getElem?_filterMap, hi]
    exact hparse
  have hne : parse py text ≠ [] := by
    rintro hnil
    rw [hnil] at hcut
    simp at hcut
  show (planner.planSubtasks py userRequest text)[i]? = _
  rw [planSubtasks, if_neg hne, assignDependencies, List.getElem?_mapIdx, hcut]
  rfl

/-- What the plan makes of the dependencies of a survivor. -/
theorem Survives.dependsOn_iff (hload : loadJson py text = some (.arr items))
    (hi : planner.Survives py items i p item) (hj : planner.Survives py items j q item')
    (hparse : parseItem py item = some subtask) :
    (planner.plan py userRequest text).DependsOn i j ↔
      q < p ∧ ((j : Int) ∈ item.dependsOn ∨
        item.dependsOn = [] ∧ subtask.agentType = .summarization) := by
  have hplan : (planner.plan py userRequest text).subtasks[i]? = some (assignDependency i subtask) :=
    hi.plan_subtask hload hparse
  have hdeps := parseItem_dependsOn hparse
  rw [hi.lt_iff hj]
  have : (planner.plan py userRequest text).DependsOn i j ↔
      (j : Int) ∈ (assignDependency i subtask).dependsOn := by
    constructor
    · rintro ⟨subtask', hsubtask, hmem⟩
      obtain rfl := Option.some.inj (hplan.symm.trans hsubtask)
      exact hmem
    · exact fun hmem => ⟨_, hplan, hmem⟩
  rw [this, assignDependency, ← hdeps]
  split_ifs with hne hsum
  · simp [hne, and_comm]
  · have hnil : subtask.dependsOn = [] := not_not.1 hne
    simp [hnil, hsum]
  · have hnil : subtask.dependsOn = [] := not_not.1 hne
    simp [hnil, hsum]

theorem Survives.agentType (hload : loadJson py text = some (.arr items))
    (hi : planner.Survives py items i p item) (hparse : parseItem py item = some subtask) :
    (∃ subtask', (planner.plan py userRequest text).subtasks[i]? = some subtask' ∧
      subtask'.agentType = .summarization) ↔ subtask.agentType = .summarization := by
  rw [hi.plan_subtask hload hparse]
  have : (assignDependency i subtask).agentType = subtask.agentType := by
    unfold assignDependency
    split_ifs <;> rfl
  simp [this]

/-- The plan respects the dependencies the items name exactly if no item is misread. -/
theorem respects_iff_positionsAgree (hload : loadJson py text = some (.arr items)) :
    planner.Respects py items (planner.plan py userRequest text) ↔
      planner.PositionsAgree py items := by
  constructor
  · intro h i j p q item item' hi hj hlt
    obtain ⟨subtask, hparse⟩ := hi.parsed
    have hiff : (planner.plan py userRequest text).DependsOn i j ↔ _ :=
      hi.dependsOn_iff hload hj hparse
    constructor
    · intro hq
      rcases (hiff.1 (h.kept i j p q item item' hi hj hlt hq)).2 with hmem | ⟨hnil, -⟩
      · exact hmem
      · rw [hnil] at hq
        cases hq
    · intro hmem
      rcases h.only i j p q item item' hi hj (hiff.2 ⟨hlt, .inl hmem⟩) with ⟨-, hq⟩ | ⟨hnil, -⟩
      · exact hq
      · rw [hnil] at hmem
        cases hmem
  · intro h
    constructor
    · intro i j p q item item' hi hj hlt hq
      obtain ⟨subtask, hparse⟩ := hi.parsed
      exact (hi.dependsOn_iff hload hj hparse).2
        ⟨hlt, .inl ((h i j p q item item' hi hj hlt).1 hq)⟩
    · intro i j p q item item' hi hj hdep
      obtain ⟨subtask, hparse⟩ := hi.parsed
      rw [hi.agentType hload hparse]
      obtain ⟨hlt, hmem | hsum⟩ := (hi.dependsOn_iff hload hj hparse).1 hdep
      · exact .inl ⟨hlt, (h i j p q item item' hi hj hlt).2 hmem⟩
      · exact .inr hsum

/-- Where no item is dropped, the positions are the same. -/
theorem positionsAgree_of_parsed (h : ∀ item ∈ items, (parseItem py item).isSome) :
    planner.PositionsAgree py items := by
  have hsame : ∀ {i p item}, planner.Survives py items i p item → p = i := by
    intro i p item hi
    have hall : (items.zipIdx.filter fun p => (parseItem py p.1).isSome) = items.zipIdx :=
      List.filter_eq_self.2 fun a ha => h a.1 (List.fst_mem_of_mem_zipIdx ha)
    unfold Survives survivors at hi
    rw [hall] at hi
    rw [List.getElem?_take] at hi
    split_ifs at hi
    rw [List.getElem?_zipIdx, Option.map_eq_some_iff] at hi
    obtain ⟨a, -, heq⟩ := hi
    obtain ⟨-, rfl⟩ := Prod.mk.inj heq
    exact Nat.zero_add i
  intro i j p q item item' hi hj _
  rw [hsame hj]

/-- A runtime that decodes one text. -/
def decoding (text : String) (items : List Json) : Python where
  loads t := if t = text then some (.arr items) else none
  repr _ := ""

theorem loadJson_decoding (h : text ≠ "") : loadJson (decoding text items) text = some (.arr items) := by
  rw [loadJson, if_neg h]
  simp [decoding]

/-- The item `{"description": d, "depends_on": dependsOn}`. -/
def describedItem (d : String) (dependsOn : List Json) : Json :=
  .obj [("description", .str d), ("depends_on", .arr dependsOn)]

/-- Three usable items; the last depends on the one before. -/
def threeItems : List Json :=
  [describedItem "a" [], describedItem "b" [], describedItem "c" [.int 1]]

/-- A text they are read from. -/
def threeItemsText : String :=
  "[\x7b\"description\": \"a\", \"depends_on\": []\x7d, " ++
    "\x7b\"description\": \"b\", \"depends_on\": []\x7d, " ++
    "\x7b\"description\": \"c\", \"depends_on\": [1]\x7d]"

theorem respects_threeItems :
    (init 2 5).Respects (decoding threeItemsText threeItems) threeItems
      ((init 2 5).plan (decoding threeItemsText threeItems) "q" threeItemsText) :=
  (respects_iff_positionsAgree (loadJson_decoding (by decide))).2
    (positionsAgree_of_parsed (by decide +kernel))

/-- The same behind an item that is no object; now position 1 is item `a`. -/
def shiftedItems : List Json := .null :: threeItems

/-- A text those are read from. -/
def shiftedItemsText : String :=
  "[null, \x7b\"description\": \"a\", \"depends_on\": []\x7d, " ++
    "\x7b\"description\": \"b\", \"depends_on\": []\x7d, " ++
    "\x7b\"description\": \"c\", \"depends_on\": [1]\x7d]"

/-- The edge from `c` to `a` is lost, and one to `b` is there instead. -/
theorem shiftedItems_misread :
    ¬ (init 2 5).Respects (decoding shiftedItemsText shiftedItems) shiftedItems
        ((init 2 5).plan (decoding shiftedItemsText shiftedItems) "q" shiftedItemsText) ∧
      ¬ ((init 2 5).plan (decoding shiftedItemsText shiftedItems) "q" shiftedItemsText).DependsOn 2 0 ∧
      ((init 2 5).plan (decoding shiftedItemsText shiftedItems) "q" shiftedItemsText).DependsOn 2 1 := by
  have hload : loadJson (decoding shiftedItemsText shiftedItems) shiftedItemsText =
      some (.arr shiftedItems) := loadJson_decoding (by decide)
  have ha : (init 2 5).Survives (decoding shiftedItemsText shiftedItems) shiftedItems 0 1
      (describedItem "a" []) := by rfl
  have hb : (init 2 5).Survives (decoding shiftedItemsText shiftedItems) shiftedItems 1 2
      (describedItem "b" []) := by rfl
  have hc : (init 2 5).Survives (decoding shiftedItemsText shiftedItems) shiftedItems 2 3
      (describedItem "c" [.int 1]) := by rfl
  obtain ⟨subtask, hparse⟩ := hc.parsed
  have hlost : ¬ ((init 2 5).plan (decoding shiftedItemsText shiftedItems) "q"
      shiftedItemsText).DependsOn 2 0 := by
    rw [hc.dependsOn_iff hload ha hparse]
    rintro ⟨-, hmem | ⟨hnil, -⟩⟩
    · revert hmem
      decide
    · cases hnil
  refine ⟨fun h => hlost (h.kept 2 0 3 1 _ _ hc ha (by decide) (by decide)), hlost, ?_⟩
  rw [hc.dependsOn_iff hload hb hparse]
  exact ⟨by decide, .inl (by decide)⟩

end Planner

end AgenticExecution
