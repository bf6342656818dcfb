import AgenticExecution.Safety

set_option autoImplicit false

/-! # Dependencies and context

What the safety invariant says about the dependencies of a task that was picked up, and about the
context its agent runs with. -/

namespace AgenticExecution

variable {cfg : Config} {s : State}

/-- A task that was picked up and is not FAILED has every dependency COMPLETED. -/
theorem Inv.dependency_completed (h : Inv s) {t d : Task} (ht : t ∈ s.db.tasks)
    (hs : t.status = .running ∨ t.status = .retrying ∨ t.status = .completed)
    (hd : d ∈ s.db.tasks) (hdep : t.DependsOn d) : d.status = .completed := by
  have hrow := h.wellFormed.rows t ht
  have henq : t.enqueued = true := hrow.active (by rcases hs with hs | hs | hs <;> simp [hs])
  exact hrow.ready henq (by rcases hs with hs | hs | hs <;> simp [hs]) d hd hdep

/-- Every position a task depends on holds a task of its execution. -/
theorem Inv.exists_dependency (h : Inv s) {t : Task} (ht : t ∈ s.db.tasks) {i : Int}
    (hi : i ∈ t.dependsOn) : ∃ d ∈ s.db.tasks, d.executionId = t.executionId ∧ d.orderIndex = i :=
  (h.wellFormed.depends t ht i hi).2

/-- The row a handler runs the agent for, and the context it runs it with. -/
theorem Inv.agent_context (h : Inv s) {t : Task} {context : String}
    (hpc : .agentStart t context ∈ s.handlers ∨ .agentRun t context ∈ s.handlers) :
    ∃ row ∈ s.db.tasks, row.id = t.id ∧ s.db.IsContext row context := by
  have hk : s.db.Works t ∧ s.db.IsContext t context := by
    rcases hpc with hpc | hpc <;> exact h.knows _ hpc
  obtain ⟨⟨-, row, hrow, hle⟩, parts, hctx, hparts⟩ := hk
  exact ⟨row, hrow, hle.id, parts, hctx, hle.executionId ▸ hle.dependsOn ▸ hparts⟩

/-- Dependency safety and complete context, in every reachable state: a RUNNING, RETRYING or
    COMPLETED task has every task it depends on COMPLETED with a stored result, and the context an
    agent runs with joins the entries of all dependencies, in list order. -/
theorem dependencies_completed {E : State → Event → Prop} (h : (queueMode cfg).Reachable E s) :
    (∀ t ∈ s.db.tasks, t.status = .running ∨ t.status = .retrying ∨ t.status = .completed →
      ∀ i ∈ t.dependsOn,
        (∃ d ∈ s.db.tasks, d.executionId = t.executionId ∧ d.orderIndex = i) ∧
        ∀ d ∈ s.db.tasks, d.executionId = t.executionId → d.orderIndex = i →
          d.status = .completed ∧ ∃ r ∈ s.db.results, r.taskId = d.id) ∧
    ∀ t context, .agentStart t context ∈ s.handlers ∨ .agentRun t context ∈ s.handlers →
      ∃ row ∈ s.db.tasks, row.id = t.id ∧ ∃ parts, context = join "\n\n" parts ∧
        List.Forall₂ (fun i part => ∃ d ∈ s.db.tasks, d.executionId = row.executionId ∧
          d.orderIndex = i ∧ d.status = .completed ∧ ∃ r ∈ s.db.results, r.taskId = d.id ∧
            part = "[" ++ d.agentType.value ++ "] " ++ r.output) row.dependsOn parts := by
  have hinv := reachable_inv h
  refine ⟨fun t ht hs i hi => ⟨hinv.exists_dependency ht hi, ?_⟩, fun t context hpc => ?_⟩
  · intro d hd he hidx
    have hcompleted := hinv.dependency_completed ht hs hd ⟨he, hidx ▸ hi⟩
    exact ⟨hcompleted, (hinv.wellFormed.rows d hd).stored hcompleted⟩
  · exact hinv.agent_context hpc

/-- One execution with the fallback plan, up to the agent of the task that depends on the other
    two. -/
def dependencySchedule : List Event :=
  .createExecution "q" 0 :: runs 0 1 { now := 0 } ++ .dequeue :: runs 1 22 { now := 0 } ++
    .dequeue :: runs 2 18 { now := 0, agent := .ok { text := "a" } } ++
    .dequeue :: runs 3 24 { now := 0, agent := .ok { text := "b" } } ++
    .dequeue :: runs 4 11 { now := 0 }

theorem dependencies_completed_fallback :
    ∃ s, (queueMode (fallbackConfig {})).Reachable anyEvent s ∧
      (∃ t, .agentRun t "[research] a\n\n[analysis] b" ∈ s.handlers ∧ t.dependsOn = [0, 1]) ∧
      ∀ t ∈ s.db.tasks, t.status = .running ∨ t.status = .retrying ∨ t.status = .completed →
        ∀ i ∈ t.dependsOn, ∃ d ∈ s.db.tasks, d.executionId = t.executionId ∧ d.orderIndex = i := by
  obtain ⟨s, hs, hcheck⟩ := (queueMode (fallbackConfig {})).exists_reachable (E := anyEvent)
    (fun _ _ => true)
    (fun s => s.handlers.any fun
      | .agentRun t context => context = "[research] a\n\n[analysis] b" && t.dependsOn = [0, 1]
      | _ => false)
    dependencySchedule (fun _ _ _ => trivial) (by decide +kernel)
  refine ⟨s, hs, ?_, fun t ht hst i hi => ((dependencies_completed hs).1 t ht hst i hi).1⟩
  obtain ⟨pc, hpc, hcheck⟩ := List.any_eq_true.1 hcheck
  split at hcheck
  · next t context =>
      obtain ⟨rfl, hdeps⟩ : context = "[research] a\n\n[analysis] b" ∧ t.dependsOn = [0, 1] := by
        simpa using hcheck
      exact ⟨t, hpc, hdeps⟩
  · simp at hcheck

end AgenticExecution
