import AgenticExecution.Aggregator
import Mathlib.Data.List.Nodup
import Mathlib.Data.List.Perm.Basic

set_option autoImplicit false

/-! # What the aggregator keeps

`Aggregator.aggregate` as it treats its arguments: outcomes are objects, told apart by identity even
when all their fields agree, and their `agent_type` is a plain string. Both callers create one object
for each task, so no object stands in the list twice. On such lists each outcome that counts is shown
exactly once, and the function agrees with the one on values the schedulers use. -/

namespace AgenticExecution

/-! ## Lists with distinct keys -/

section DistinctKeys

variable {α κ : Type} [DecidableEq κ] {key : α → κ} {p : α → Bool} {l : List α} {a : α}

/-- Removing by the key of the first hit removes that hit and nothing else. -/
theorem filter_key_ne_eq_eraseP (hkeys : (l.map key).Nodup) (hfirst : l.find? p = some a) :
    l.filter (fun b => key b ≠ key a) = l.eraseP p := by
  induction l with
  | nil => simp at hfirst
  | cons hd tl ih =>
    rw [List.map_cons, List.nodup_cons] at hkeys
    obtain ⟨h_new, h_tl⟩ := hkeys
    by_cases h : p hd
    · have h_hd : hd = a := by simpa [List.find?_cons, h] using hfirst
      subst h_hd
      have h_rest : tl.filter (fun b => key b ≠ key hd) = tl := by
        rw [List.filter_eq_self]
        intro b hb
        exact decide_eq_true fun heq => h_new (heq ▸ List.mem_map_of_mem hb)
      rw [List.filter_cons_of_neg (by simp), h_rest, List.eraseP_cons_of_pos h]
    · have h_first : tl.find? p = some a := by simpa [List.find?_cons, h] using hfirst
      have h_ne : key hd ≠ key a := fun heq =>
        h_new (heq ▸ List.mem_map_of_mem (List.mem_of_find?_eq_some h_first))
      rw [List.eraseP_cons_of_neg h, ← ih h_tl h_first]
      exact List.filter_cons_of_pos (by simpa using h_ne)

/-- The first hit and what is left without it are the list. -/
theorem perm_find?_eraseP (p : α → Bool) (l : List α) :
    ((l.find? p).toList ++ l.eraseP p).Perm l := by
  induction l with
  | nil => simp
  | cons hd tl ih =>
    by_cases h : p hd
    · rw [List.find?_cons_of_pos h, List.eraseP_cons_of_pos h]
      exact List.Perm.refl _
    · rw [List.find?_cons_of_neg h, List.eraseP_cons_of_neg h]
      exact List.perm_middle.trans (ih.cons hd)

end DistinctKeys

namespace Aggregator

/-- A `TaskOutcome` of the source, with its identity. -/
structure Outcome where
  ref : Nat
  agentType : String
  description : String
  status : TaskStatus
  output : String := ""
  error : String := ""

/-- `o.status == TaskStatus.COMPLETED and o.output`. -/
def Outcome.counts (o : Outcome) : Bool := o.status = .completed && o.output ≠ ""

/-- The summary agent gave it. -/
def Outcome.isSummary (o : Outcome) : Bool := o.agentType = AgentType.summarization.value

/-- The `completed` of `aggregate`. -/
def completed (outcomes : List Outcome) : List Outcome := outcomes.filter Outcome.counts

/-- The lines of one supporting outcome. -/
def Outcome.section (o : Outcome) : List String := ["", "### " ++ o.agentType, strip o.output]

/-- The `supporting` of `aggregate`: without the object that is the headline. -/
def supporting (summary : Option Outcome) (completed : List Outcome) : List Outcome :=
  match summary with
  | some summary => completed.filter fun o => o.ref ≠ summary.ref
  | none => completed

/-- The text for a headline and supporting outcomes, before it is trimmed. -/
def textOf (summary : Option Outcome) (supporting : List Outcome) : String :=
  let headline :=
    match summary with
    | some summary => [strip summary.output]
    | none => []
  let supportingLines :=
    if supporting = [] then []
    else ["", "---", "Supporting work:"] ++ supporting.flatMap Outcome.section
  join "\n" (headline ++ supportingLines)

/-- `Aggregator.aggregate`. -/
def aggregate (_userRequest : String) (outcomes : List Outcome) : String :=
  if completed outcomes = [] then "No results were produced."
  else
    let summary := (completed outcomes).find? Outcome.isSummary
    strip (textOf summary (supporting summary (completed outcomes)))

/-! ## The text as a function of what it shows -/

/-- What the text shows of an outcome: its agent type and its output. -/
def Outcome.shown (o : Outcome) : String × String := (o.agentType, o.output)

/-- The headline shown is a summary. -/
def showsSummary (shown : String × String) : Bool := shown.1 = AgentType.summarization.value

/-- `textOf` on what it shows. -/
def shownText (headline : Option (String × String)) (sections : List (String × String)) : String :=
  join "\n" (headline.toList.map (fun entry => strip entry.2) ++
    if sections = [] then []
    else ["", "---", "Supporting work:"] ++
      sections.flatMap fun entry => ["", "### " ++ entry.1, strip entry.2])

theorem textOf_eq_shownText (summary : Option Outcome) (sections : List Outcome) :
    textOf summary sections =
      shownText (summary.map Outcome.shown) (sections.map Outcome.shown) := by
  have h_sections : sections.flatMap Outcome.section =
      (sections.map Outcome.shown).flatMap fun entry => ["", "### " ++ entry.1, strip entry.2] := by
    rw [List.flatMap_map]
    rfl
  simp only [textOf, shownText, List.map_eq_nil_iff, h_sections]
  cases summary with
  | none => rfl
  | some summary => rfl

/-- The result for outcomes that count, from what the text shows of them. -/
def report (shown : List (String × String)) : String :=
  if shown = [] then "No results were produced."
  else strip (shownText (shown.find? showsSummary) (shown.eraseP showsSummary))

/-- A list of outcomes as `_outcomes` and `SequentialExecutor.execute` build it: an object of its own
    for each entry. -/
structure Outcomes where
  objects : List Outcome
  distinct : (objects.map Outcome.ref).Nodup

theorem Outcomes.distinct_completed (outcomes : Outcomes) :
    ((completed outcomes.objects).map Outcome.ref).Nodup :=
  outcomes.distinct.sublist (List.filter_sublist.map Outcome.ref)

/-- Taking the headline out by identity takes out one position: the first summarization. -/
theorem supporting_eq_eraseP (outcomes : Outcomes) :
    supporting ((completed outcomes.objects).find? Outcome.isSummary) (completed outcomes.objects) =
      (completed outcomes.objects).eraseP Outcome.isSummary := by
  cases h : (completed outcomes.objects).find? Outcome.isSummary with
  | none =>
    show completed outcomes.objects = _
    exact (List.eraseP_of_forall_not (List.find?_eq_none.mp h)).symm
  | some summary => exact filter_key_ne_eq_eraseP outcomes.distinct_completed h

theorem find?_shown (outcomes : List Outcome) :
    (outcomes.map Outcome.shown).find? showsSummary =
      (outcomes.find? Outcome.isSummary).map Outcome.shown :=
  List.find?_map ..

theorem eraseP_shown (outcomes : List Outcome) :
    (outcomes.map Outcome.shown).eraseP showsSummary =
      (outcomes.eraseP Outcome.isSummary).map Outcome.shown :=
  List.eraseP_map ..

/-- The text depends on nothing else. -/
theorem aggregate_eq_report (userRequest : String) (outcomes : Outcomes) :
    aggregate userRequest outcomes.objects =
      report ((completed outcomes.objects).map Outcome.shown) := by
  simp only [aggregate, report, List.map_eq_nil_iff, supporting_eq_eraseP, textOf_eq_shownText,
    find?_shown, eraseP_shown]

/-! ## The callers' lists -/

/-- A new object for each value, as the callers create them. -/
def allocate (ref : Nat) : List TaskOutcome → List Outcome
  | [] => []
  | o :: rest =>
    { ref := ref
      agentType := o.agentType.value
      description := o.description
      status := o.status
      output := o.output
      error := o.error } :: allocate (ref + 1) rest

theorem map_ref_allocate (ref : Nat) (values : List TaskOutcome) :
    (allocate ref values).map Outcome.ref = List.range' ref values.length := by
  induction values generalizing ref with
  | nil => rfl
  | cons o rest ih => simp [allocate, ih, List.range'_succ]

/-- New objects for the values. -/
def Outcomes.ofValues (values : List TaskOutcome) : Outcomes where
  objects := allocate 0 values
  distinct := by
    rw [map_ref_allocate]
    exact List.nodup_range'

theorem shown_ofValues (values : List TaskOutcome) :
    (completed (Outcomes.ofValues values).objects).map Outcome.shown =
      (values.filter fun o => o.status = .completed && o.output ≠ "").map
        fun o => (o.agentType.value, o.output) := by
  show ((allocate 0 values).filter Outcome.counts).map Outcome.shown = _
  generalize 0 = ref
  induction values generalizing ref with
  | nil => rfl
  | cons o rest ih =>
    by_cases h : o.status = .completed ∧ o.output ≠ ""
    · simp [allocate, Outcome.counts, Outcome.shown, h] at ih ⊢
      exact ih (ref + 1)
    · simp [allocate, Outcome.counts, h] at ih ⊢
      exact ih (ref + 1)

/-- `aggregate` on values, which the rest of the development uses, is this one on the callers'
    objects. -/
theorem aggregate_ofValues (userRequest : String) (values : List TaskOutcome) :
    aggregate userRequest (Outcomes.ofValues values).objects =
      AgenticExecution.aggregate userRequest values := by
  have h_summary : (showsSummary ∘ fun o : TaskOutcome => (o.agentType.value, o.output)) =
      fun o => decide (o.agentType = .summarization) := by
    funext o
    show decide (o.agentType.value = AgentType.summarization.value) = _
    cases o.agentType <;> rfl
  rw [aggregate_eq_report, shown_ofValues]
  simp only [report, shownText, AgenticExecution.aggregate, List.find?_map, List.eraseP_map, h_summary,
    List.map_eq_nil_iff, List.flatMap_map]
  cases List.find? _ _ with
  | none => rfl
  | some summary => rfl

/-! ## Nothing lost, nothing twice -/

/-- The outcomes that are COMPLETED with an output. -/
def delivered (outcomes : List Outcome) : List Outcome :=
  outcomes.filter fun o => o.status = .completed ∧ o.output ≠ ""

theorem completed_eq_delivered (outcomes : List Outcome) : completed outcomes = delivered outcomes :=
  List.filter_congr fun _ _ => (Bool.decide_and _ _).symm

/-- `text` shows the outcomes of `delivered`, each of them once: the first summarization as the headline
    `summary`, and the others as `sections`, in their order. -/
structure Shows (delivered : List Outcome) (summary : Option Outcome) (sections : List Outcome)
    (text : String) : Prop where
  first : summary = delivered.find? fun o => o.agentType = "summarization"
  perm : (summary.toList ++ sections).Perm delivered
  ordered : sections.Sublist delivered
  text_eq : text = join "\n" (summary.toList.map (fun o => strip o.output) ++
    if sections = [] then []
    else ["", "---", "Supporting work:"] ++
      sections.flatMap fun o => ["", "### " ++ o.agentType, strip o.output])

/-- The aggregator neither loses nor duplicates work: the text is determined by the outcomes that are
    COMPLETED with an output, and shows each of them once. -/
theorem aggregate_shows (userRequest : String) (outcomes : Outcomes) :
    (∀ (userRequest' : String) (other : Outcomes),
      (delivered other.objects).map Outcome.shown = (delivered outcomes.objects).map Outcome.shown →
        aggregate userRequest' other.objects = aggregate userRequest outcomes.objects) ∧
    (delivered outcomes.objects ≠ [] → ∃ summary sections text,
      Shows (delivered outcomes.objects) summary sections text ∧
        aggregate userRequest outcomes.objects = strip text) := by
  refine ⟨fun userRequest' other h => ?_, fun hne => ?_⟩
  · rw [aggregate_eq_report, aggregate_eq_report, completed_eq_delivered, completed_eq_delivered, h]
  · rw [← completed_eq_delivered] at hne ⊢
    refine ⟨(completed outcomes.objects).find? Outcome.isSummary,
      (completed outcomes.objects).eraseP Outcome.isSummary, _, ⟨rfl, ?_, ?_, rfl⟩, ?_⟩
    · exact perm_find?_eraseP Outcome.isSummary (completed outcomes.objects)
    · exact List.eraseP_sublist
    · simp only [aggregate, if_neg hne, supporting_eq_eraseP, textOf]
      cases h : (completed outcomes.objects).find? Outcome.isSummary with
      | none => rfl
      | some summary => rfl

/-- Two outcomes that look alike, a failed summary and two summaries that look alike. -/
def lookAlikes : Outcomes where
  objects :=
    [ { ref := 0, agentType := "analysis", description := "a", status := .completed, output := " x" },
      { ref := 1, agentType := "summarization", description := "s", status := .failed, error := "e" },
      { ref := 2, agentType := "analysis", description := "a", status := .completed, output := " x" },
      { ref := 3, agentType := "summarization", description := "s", status := .completed, output := "y" },
      { ref := 4, agentType := "summarization", description := "s", status := .completed, output := "y" } ]
  distinct := by decide

theorem aggregate_shows_lookAlikes :
    ∃ summary sections text,
      Shows (delivered lookAlikes.objects) summary sections text ∧
        aggregate "r" lookAlikes.objects = strip text :=
  (aggregate_shows "r" lookAlikes).2 (List.cons_ne_nil _ _)

/-- A list that holds one summary twice. -/
def sameTwice : List Outcome :=
  let summary : Outcome :=
    { ref := 0, agentType := "summarization", description := "s", status := .completed, output := "y" }
  [summary, summary]

/-- Both entries go into the headline, and no section shows the second. -/
theorem aggregate_drops_sameTwice :
    delivered sameTwice ≠ [] ∧
      ¬ ∃ summary sections text, Shows (delivered sameTwice) summary sections text ∧
        aggregate "r" sameTwice = strip text := by
  refine ⟨List.cons_ne_nil _ _, ?_⟩
  rintro ⟨summary, sections, text, hshows, haggregate⟩
  obtain ⟨hfirst, hperm, -, htext⟩ := hshows
  have hsections : sections = sameTwice.drop 1 := by
    subst hfirst
    exact List.perm_singleton.1 ((List.perm_cons _).1 hperm)
  subst hfirst hsections htext
  exact absurd haggregate (by decide +kernel)

end Aggregator

end AgenticExecution
