import AgenticExecution.Observability
import AgenticExecution.Library.Exposition

set_option autoImplicit false

/-! # Prometheus text

`render_prometheus` turns the dict of `collect_metrics` into the text exposition format. What a scraper
reads from the text are the figures of the dict, each family declared once and before its samples. -/

namespace AgenticExecution

namespace Prometheus

open Exposition

/-- The lines one call of `add` appends; the value is printed already, `none` is `None`. -/
def add (name : String) (value : Option String) (labels helpText metricType : String) :
    List String :=
  match value with
  | none => []
  | some value =>
    let comments :=
      if helpText = "" then []
      else ["# HELP " ++ name ++ " " ++ helpText, "# TYPE " ++ name ++ " " ++ metricType]
    let suffix := if labels = "" then "" else "\x7b" ++ labels ++ "\x7d"
    comments ++ [name ++ suffix ++ " " ++ value]

/-- `f'{label}="{value}"'`. -/
def labelText (label value : String) : String := label ++ "=\"" ++ value ++ "\""

/-- The lines for `metrics.get("queue", {})`: an error dict has none of the keys. -/
def queueLines : Option (Except String QueueDepths) → List String
  | some (.ok depths) =>
    [("main", depths.mainDepth), ("delayed", depths.delayedDepth),
        ("dead_letter", depths.deadLetterDepth)].flatMap fun p =>
      add "aep_queue_depth" (some (toString p.2)) (labelText "queue" p.1)
        (if p.1 = "main" then "Queue depth" else "") "gauge"
  | some (.error _) => []
  | none => []

/-- The lines `render_prometheus` collects. `print` is `str` on floats. -/
def lines (print : ℚ → String) (m : CollectedMetrics) : List String :=
  (m.executionsByStatus.flatMap fun p =>
      add "aep_executions_total" (some (toString p.2)) (labelText "status" p.1.value)
        (if p.1.value = "PENDING" then "Executions by status" else "") "gauge") ++
    (m.tasksByStatus.flatMap fun p =>
      add "aep_tasks_total" (some (toString p.2)) (labelText "status" p.1.value)
        (if p.1.value = "PENDING" then "Tasks by status" else "") "gauge") ++
    add "aep_execution_duration_ms_avg" (m.executionAvg.map print) "" "Avg execution duration (ms)"
      "gauge" ++
    add "aep_execution_duration_ms_max" (m.executionMax.map toString) ""
      "Max execution duration (ms)" "gauge" ++
    add "aep_task_duration_ms_avg" (m.taskAvg.map print) "" "Avg task duration (ms)" "gauge" ++
    add "aep_task_duration_ms_max" (m.taskMax.map toString) "" "Max task duration (ms)" "gauge" ++
    add "aep_llm_tokens_total" (some (toString m.totalTokens)) "" "Total LLM tokens" "counter" ++
    add "aep_llm_cost_usd_total" (some (print m.totalCostUsd)) "" "Estimated LLM cost (USD)"
      "counter" ++
    add "aep_tool_calls_total" (some (toString m.totalCalls)) "" "Total tool invocations"
      "counter" ++
    queueLines m.queue

/-- `render_prometheus`. -/
def renderPrometheus (print : ℚ → String) (m : CollectedMetrics) : String :=
  join "\n" (lines print m) ++ "\n"

/-! ## What the text is to say -/

/-- A gauge with one sample for each value of a label. -/
def labelled (name help label : String) (samples : List (String × Nat)) : Family where
  name := name.toList
  help := help.toList
  kind := "gauge".toList
  samples := samples.map fun p => ⟨(labelText label p.1).toList, (toString p.2).toList⟩

/-- A family with one sample, left out where there is no value. -/
def single (name help kind : String) (value : Option String) : List Family :=
  value.toList.map fun v => ⟨name.toList, help.toList, kind.toList, [⟨[], v.toList⟩]⟩

/-- The family of the queue depths, where Redis answered. -/
def queueFamilies : Option (Except String QueueDepths) → List Family
  | some (.ok depths) =>
    [labelled "aep_queue_depth" "Queue depth" "queue" [("main", depths.mainDepth),
      ("delayed", depths.delayedDepth), ("dead_letter", depths.deadLetterDepth)]]
  | some (.error _) => []
  | none => []

/-- The metric families of a dict. -/
def families (print : ℚ → String) (m : CollectedMetrics) : List Family :=
  labelled "aep_executions_total" "Executions by status" "status"
      (m.executionsByStatus.map fun p => (p.1.value, p.2)) ::
    labelled "aep_tasks_total" "Tasks by status" "status"
      (m.tasksByStatus.map fun p => (p.1.value, p.2)) ::
    (single "aep_execution_duration_ms_avg" "Avg execution duration (ms)" "gauge"
        (m.executionAvg.map print) ++
      single "aep_execution_duration_ms_max" "Max execution duration (ms)" "gauge"
        (m.executionMax.map toString) ++
      single "aep_task_duration_ms_avg" "Avg task duration (ms)" "gauge" (m.taskAvg.map print) ++
      single "aep_task_duration_ms_max" "Max task duration (ms)" "gauge" (m.taskMax.map toString) ++
      single "aep_llm_tokens_total" "Total LLM tokens" "counter" (some (toString m.totalTokens)) ++
      single "aep_llm_cost_usd_total" "Estimated LLM cost (USD)" "counter"
        (some (print m.totalCostUsd)) ++
      single "aep_tool_calls_total" "Total tool invocations" "counter"
        (some (toString m.totalCalls)) ++
      queueFamilies m.queue)

/-! ## The lines are those of the families -/

theorem toList_help (name text : String) :
    ("# HELP " ++ name ++ " " ++ text).toList = (Line.help name.toList text.toList).text := by
  simp only [String.toList_append, List.append_assoc]
  rfl

theorem toList_kind (name text : String) :
    ("# TYPE " ++ name ++ " " ++ text).toList = (Line.kind name.toList text.toList).text := by
  simp only [String.toList_append, List.append_assoc]
  rfl

theorem toList_sample (name labels value : String) :
    (name ++ (if labels = "" then "" else "\x7b" ++ labels ++ "\x7d") ++ " " ++ value).toList =
      (Line.sample name.toList ⟨labels.toList, value.toList⟩).text := by
  simp only [Line.text, String.toList_eq_nil_iff, String.toList_append, List.append_assoc]
  split
  · rfl
  · simp only [String.toList_append, List.append_assoc, List.cons_append]
    rfl

theorem add_first (name value help kind labels : String) (hhelp : help ≠ "") :
    (add name (some value) labels help kind).map String.toList =
      ([.help name.toList help.toList, .kind name.toList kind.toList,
        .sample name.toList ⟨labels.toList, value.toList⟩] : List Line).map Line.text := by
  simp only [add, if_neg hhelp, List.cons_append, List.nil_append, List.map_cons, List.map_nil,
    toList_help, toList_kind, toList_sample]

theorem add_next (name value kind labels : String) :
    (add name (some value) labels "" kind).map String.toList =
      ([.sample name.toList ⟨labels.toList, value.toList⟩] : List Line).map Line.text := by
  simp only [add, if_pos, List.nil_append, List.map_cons, List.map_nil, toList_sample]

theorem add_single (name help kind : String) (value : Option String) (hhelp : help ≠ "") :
    (add name value "" help kind).map String.toList =
      ((single name help kind value).flatMap Family.lines).map Line.text := by
  cases value with
  | none => rfl
  | some v => exact add_first name v help kind "" hhelp

/-- Of the samples of a family only the first brings the comments along. -/
theorem add_labelled (name label : String) {help first : String} (n : Nat)
    {rest : List (String × Nat)} (hhelp : help ≠ "") (hrest : ∀ p ∈ rest, p.1 ≠ first) :
    (((first, n) :: rest).flatMap fun p =>
        add name (some (toString p.2)) (labelText label p.1) (if p.1 = first then help else "")
          "gauge").map String.toList =
      (labelled name help label ((first, n) :: rest)).lines.map Line.text := by
  have htail : (rest.flatMap fun p =>
      add name (some (toString p.2)) (labelText label p.1) (if p.1 = first then help else "")
        "gauge").map String.toList =
      (rest.map fun p => Line.sample name.toList
        ⟨(labelText label p.1).toList, (toString p.2).toList⟩).map Line.text := by
    induction rest with
    | nil => rfl
    | cons p rest ih =>
        rw [List.flatMap_cons, List.map_append, if_neg (hrest p List.mem_cons_self), add_next,
          ih fun q hq => hrest q (List.mem_cons_of_mem p hq)]
        rfl
  rw [List.flatMap_cons, List.map_append, htail, if_pos rfl, add_first _ _ _ _ _ hhelp]
  simp [labelled, Family.lines]

/-- The lines of a status family, where the dict lists the members of the enumeration. -/
theorem add_byStatus {κ : Type} (value : κ → String) (name : String) {help : String} {first : κ}
    {members : List κ} {counts : List (κ × Nat)} (hcounts : counts.map Prod.fst = first :: members)
    (hhelp : help ≠ "") (hfirst : value first = "PENDING")
    (hmembers : ∀ k ∈ members, value k ≠ "PENDING") :
    (counts.flatMap fun p =>
        add name (some (toString p.2)) (labelText "status" (value p.1))
          (if value p.1 = "PENDING" then help else "") "gauge").map String.toList =
      (labelled name help "status" (counts.map fun p => (value p.1, p.2))).lines.map Line.text := by
  cases counts with
  | nil => cases hcounts
  | cons p rest =>
      obtain ⟨hp, hrest⟩ := List.cons.inj hcounts
      have hothers : ∀ q ∈ rest.map fun p => (value p.1, p.2), q.1 ≠ "PENDING" := by
        intro q hq
        obtain ⟨p', hp', rfl⟩ := List.mem_map.1 hq
        exact hmembers p'.1 (hrest ▸ List.mem_map.2 ⟨p', hp', rfl⟩)
      have hlines := add_labelled name "status" p.2 hhelp hothers
      have hpending : value p.1 = "PENDING" := by
        rw [← hfirst]
        exact congrArg value hp
      rw [List.map_cons, hpending, ← hlines, ← hpending, ← List.map_cons
        (f := fun p : κ × Nat => (value p.1, p.2)), List.flatMap_map]

/-- A dict whose status counts list the members of the enumerations, as `collect_metrics` builds it. -/
structure Listed (m : CollectedMetrics) : Prop where
  executions : m.executionsByStatus.map Prod.fst = ExecutionStatus.members
  tasks : m.tasksByStatus.map Prod.fst = TaskStatus.members

theorem listed_collectMetrics (mode : String) (read : Nat → Db) (redis : Nat → Except Exn Redis) :
    Listed (collectMetrics mode read redis) where
  executions := (List.map_map ..).trans (List.map_id _)
  tasks := (List.map_map ..).trans (List.map_id _)

theorem map_queueLines (queue : Option (Except String QueueDepths)) :
    (queueLines queue).map String.toList =
      ((queueFamilies queue).flatMap Family.lines).map Line.text := by
  cases queue with
  | none => rfl
  | some answer =>
      cases answer with
      | error text => rfl
      | ok depths =>
          rw [queueFamilies, List.flatMap_singleton]
          exact add_labelled "aep_queue_depth" "queue" depths.mainDepth (by decide) (by simp)

theorem map_lines (print : ℚ → String) {m : CollectedMetrics} (h : Listed m) :
    (lines print m).map String.toList =
      ((families print m).flatMap Family.lines).map Line.text := by
  have hexecutions := add_byStatus ExecutionStatus.value "aep_executions_total" h.executions
    (show "Executions by status" ≠ "" by decide) rfl (by decide)
  have htasks := add_byStatus TaskStatus.value "aep_tasks_total" h.tasks
    (show "Tasks by status" ≠ "" by decide) rfl (by decide)
  simp (disch := decide) only [lines, families, List.map_append, List.flatMap_cons,
    List.flatMap_append, hexecutions, htasks, add_single, map_queueLines, List.append_assoc]

theorem toList_join_lines {ls : List String} (h : ls ≠ []) :
    (join "\n" ls ++ "\n").toList = ['\n'].intercalate (ls.map String.toList ++ [[]]) := by
  have hjoin : join "\n" ls ++ "\n" = String.intercalate "\n" (ls ++ [""]) := by
    rw [String.intercalate_append_of_ne_nil h (by simp), String.intercalate_singleton,
      String.append_empty]
    rfl
  rw [hjoin, String.toList_intercalate, List.map_append]
  rfl

/-! ## The families are well formed -/

theorem newline_not_mem_nat (n : Nat) : '\n' ∉ (toString n).toList := by
  intro hmem
  rw [Nat.toString_eq_repr, Nat.toList_repr] at hmem
  have hdigit := Nat.isDigit_of_mem_toDigits (by decide) (by decide) hmem
  cases hdigit

theorem newline_not_mem_int (n : Int) : '\n' ∉ (toString n).toList := by
  cases n with
  | ofNat n => exact newline_not_mem_nat n
  | negSucc n =>
      have htext : toString (Int.negSucc n) = "-" ++ toString (n + 1) := rfl
      rw [htext, String.toList_append, List.mem_append, not_or]
      exact ⟨by decide, newline_not_mem_nat (n + 1)⟩

/-- A name and a help text that fit on their lines. -/
def declarable (name help : String) : Bool :=
  name.toList.all isNameChar && !help.toList.contains '\n'

/-- A label that ends at its brace. -/
def closable (label value : String) : Bool :=
  !(labelText label value).toList.contains '}' && !(labelText label value).toList.contains '\n'

theorem name_of_declarable {name help : String} (h : declarable name help = true) :
    (∀ c ∈ name.toList, isNameChar c = true) ∧ '\n' ∉ help.toList := by
  simpa [declarable] using h

theorem wellFormed_labelled {name help label : String} {samples : List (String × Nat)}
    {keys : List String} (hkeys : samples.map Prod.fst = keys) (h : declarable name help = true)
    (hlabels : keys.all (closable label) = true)
    (hdistinct : (keys.map fun key => (labelText label key).toList).Nodup) :
    (labelled name help label samples).WellFormed where
  name := (name_of_declarable h).1
  help := (name_of_declarable h).2
  kind := show "gauge".toList ≠ [] ∧ '\n' ∉ "gauge".toList by decide
  samples s hs := by
    obtain ⟨p, hp, rfl⟩ := List.mem_map.1 hs
    have hclosable := List.all_eq_true.1 hlabels p.1 (hkeys ▸ List.mem_map.2 ⟨p, hp, rfl⟩)
    exact ⟨by simpa [closable] using hclosable, newline_not_mem_nat p.2⟩
  distinct := by
    subst hkeys
    simpa [labelled, Function.comp_def] using hdistinct

theorem wellFormed_single {name help kind : String} {value : Option String}
    (h : declarable name help = true) (hkind : kind.toList ≠ [] ∧ '\n' ∉ kind.toList)
    (hvalue : ∀ v ∈ value, '\n' ∉ v.toList) : ∀ f ∈ single name help kind value, f.WellFormed := by
  intro f hf
  cases value with
  | none => cases hf
  | some v =>
      obtain rfl := List.mem_singleton.1 hf
      obtain ⟨hname, hhelp⟩ := name_of_declarable h
      refine ⟨hname, hhelp, hkind, ?_, List.nodup_singleton _⟩
      intro s hs
      obtain rfl := List.mem_singleton.1 hs
      exact ⟨by simp, hvalue v rfl⟩

theorem wellFormed_queueFamilies (queue : Option (Except String QueueDepths)) :
    ∀ f ∈ queueFamilies queue, f.WellFormed := by
  intro f hf
  cases queue with
  | none => cases hf
  | some answer =>
      cases answer with
      | error text => cases hf
      | ok depths =>
          obtain rfl := List.mem_singleton.1 hf
          exact wellFormed_labelled (show _ = ["main", "delayed", "dead_letter"] from rfl)
            (by decide +kernel) (by decide +kernel) (by decide +kernel)

theorem wellFormed_families {print : ℚ → String} (hprint : ∀ x, '\n' ∉ (print x).toList)
    {m : CollectedMetrics} (h : Listed m) : ∀ f ∈ families print m, f.WellFormed := by
  have hfloat : ∀ x : Option ℚ, ∀ v ∈ x.map print, '\n' ∉ v.toList := by
    intro x v hv
    obtain ⟨y, -, rfl⟩ := Option.mem_map.1 hv
    exact hprint y
  have hint : ∀ x : Option Int, ∀ v ∈ x.map toString, '\n' ∉ v.toList := by
    intro x v hv
    obtain ⟨n, -, rfl⟩ := Option.mem_map.1 hv
    exact newline_not_mem_int n
  have hexecutions : (m.executionsByStatus.map fun p => (p.1.value, p.2)).map Prod.fst =
      ExecutionStatus.members.map ExecutionStatus.value := by
    rw [← h.executions]
    simp
  have htasks : (m.tasksByStatus.map fun p => (p.1.value, p.2)).map Prod.fst =
      TaskStatus.members.map TaskStatus.value := by
    rw [← h.tasks]
    simp
  have hgauge : "gauge".toList ≠ [] ∧ '\n' ∉ "gauge".toList := by decide
  have hcounter : "counter".toList ≠ [] ∧ '\n' ∉ "counter".toList := by decide
  simp only [families, List.forall_mem_cons, List.forall_mem_append]
  refine ⟨?_, ?_, ⟨⟨⟨⟨⟨⟨?_, ?_⟩, ?_⟩, ?_⟩, ?_⟩, ?_⟩, ?_⟩, wellFormed_queueFamilies _⟩
  · exact wellFormed_labelled hexecutions (by decide +kernel) (by decide +kernel) (by decide +kernel)
  · exact wellFormed_labelled htasks (by decide +kernel) (by decide +kernel) (by decide +kernel)
  · exact wellFormed_single (by decide +kernel) hgauge (hfloat _)
  · exact wellFormed_single (by decide +kernel) hgauge (hint _)
  · exact wellFormed_single (by decide +kernel) hgauge (hfloat _)
  · exact wellFormed_single (by decide +kernel) hgauge (hint _)
  · exact wellFormed_single (by decide +kernel) hcounter (hint (some _))
  · exact wellFormed_single (by decide +kernel) hcounter (hfloat (some _))
  · exact wellFormed_single (by decide +kernel) hcounter (hint (some _))

/-- The names of the families, those that may be left out included. -/
def familyNames : List String :=
  ["aep_executions_total", "aep_tasks_total", "aep_execution_duration_ms_avg",
    "aep_execution_duration_ms_max", "aep_task_duration_ms_avg", "aep_task_duration_ms_max",
    "aep_llm_tokens_total", "aep_llm_cost_usd_total", "aep_tool_calls_total", "aep_queue_depth"]

theorem names_single (name help kind : String) (value : Option String) :
    ((single name help kind value).map Family.name).Sublist [name.toList] := by
  cases value with
  | none => exact List.nil_sublist _
  | some v => exact .refl _

theorem names_families (print : ℚ → String) (m : CollectedMetrics) :
    ((families print m).map Family.name).Sublist (familyNames.map String.toList) := by
  have hqueue : ((queueFamilies m.queue).map Family.name).Sublist ["aep_queue_depth".toList] := by
    cases m.queue with
    | none => exact List.nil_sublist _
    | some answer =>
        cases answer with
        | error text => exact List.nil_sublist _
        | ok depths => exact .refl _
  simp only [families, List.map_cons, List.map_append]
  refine .cons_cons _ (.cons_cons _ ?_)
  exact ((((((((names_single ..).append (names_single ..)).append (names_single ..)).append
    (names_single ..)).append (names_single ..)).append (names_single ..)).append
    (names_single ..)).append hqueue)

/-- What a scraper reads from `/metrics` is what was collected: every family once, declared before its
    samples, with the figures of the dict and without those that are `None`. -/
theorem read_renderPrometheus {print : ℚ → String} (hprint : ∀ x, '\n' ∉ (print x).toList)
    (mode : String) (reads : Nat → Db) (redis : Nat → Except Exn Redis) :
    read (renderPrometheus print (collectMetrics mode reads redis)).toList =
      some (families print (collectMetrics mode reads redis)) := by
  have hlisted := listed_collectMetrics mode reads redis
  generalize collectMetrics mode reads redis = m at hlisted ⊢
  have hlines := map_lines print hlisted
  have hne : lines print m ≠ [] := by
    intro hnil
    rw [hnil] at hlines
    cases hlines
  have htext : (renderPrometheus print m).toList = write (families print m) := by
    rw [renderPrometheus, toList_join_lines hne, hlines, write]
  rw [htext]
  exact read_write (wellFormed_families hprint hlisted)
    ((names_families print m).nodup (by decide +kernel))

/-- `str` on a float without a fraction below `1e16`. -/
def wholeFloat (x : ℚ) : String := toString ⌊x⌋ ++ ".0"

theorem read_renderPrometheus_submitted :
    let m := collectMetrics "queue" (fun _ => (({} : State).createExecution "q" 0).db) fun _ => .ok {}
    (m.executionsTotal = 1 ∧ m.totalCostUsd = 0) ∧
      read (renderPrometheus wholeFloat m).toList = some (families wholeFloat m) := by
  refine ⟨by decide +kernel, read_renderPrometheus (fun x => ?_) _ _ _⟩
  rw [wholeFloat, String.toList_append, List.mem_append, not_or]
  exact ⟨newline_not_mem_int _, by decide⟩

end Prometheus

end AgenticExecution
