import AgenticExecution.Safety

set_option autoImplicit false

/-! # Finished executions

Whether a COMPLETED or FAILED execution stays as it finished. Every update of an execution row is
guarded by the status it expects, except the one of `_fail_execution`, which the error path of
`plan_execution` also reaches for a plan job that is delivered again. -/

namespace AgenticExecution

variable {cfg : Config} {s s' : State} {ev : Event}

/-! ## The recorded outcome -/

/-- A finished execution keeps its status, its `final_result` and its `error`. -/
def Db.KeepsOutcomes (db db' : Db) : Prop :=
  ∀ x ∈ db.executions, x.status.isTerminal = true → ∃ x' ∈ db'.executions, x'.id = x.id ∧
    x'.status = x.status ∧ x'.finalResult = x.finalResult ∧ x'.error = x.error

theorem Db.KeepsOutcomes.of_subset {db db' : Db} (h : ∀ x ∈ db.executions, x ∈ db'.executions) :
    db.KeepsOutcomes db' :=
  fun x hx _ => ⟨x, h x hx, rfl, rfl, rfl, rfl⟩

theorem Db.KeepsOutcomes.trans {db db' db'' : Db} (h : db.KeepsOutcomes db')
    (h' : db'.KeepsOutcomes db'') : db.KeepsOutcomes db'' := by
  intro x hx hs
  obtain ⟨x', hx', hid, hst, hres, herr⟩ := h x hx hs
  obtain ⟨x'', hx'', hid', hst', hres', herr'⟩ := h' x' hx' (hst ▸ hs)
  exact ⟨x'', hx'', hid'.trans hid, hst'.trans hst, hres'.trans hres, herr'.trans herr⟩

/-- `_fail_execution` meets an execution that is finished, and is about to record something else. -/
def overwrites (s : State) : Event → Bool
  | .run hid _ =>
    match s.live? hid with
    | some (.planFail e error) => s.db.executions.rows.any fun x =>
        x.id = e && x.status.isTerminal && !(x.status = .failed && x.error = some error)
    | _ => false
  | _ => false

/-- A guarded update leaves what a finished execution recorded alone. -/
theorem keepsOutcomes_updateExecution {db : Db} {now : Time} {e : ExecutionId} {u : ExecutionUpdate}
    (h : ∀ x ∈ db.executions, x.id = e → x.status.isTerminal = true → u.guard x = true →
      (u.set now x).status = x.status ∧ (u.set now x).finalResult = x.finalResult ∧
        (u.set now x).error = x.error) :
    db.KeepsOutcomes (db.updateExecution now e u) := by
  intro x hx hs
  refine ⟨_, Table.update_mem (u.set_id now) hx, ?_⟩
  split
  · next hg => exact ⟨u.set_id now x, h x hx hg.1 hs hg.2⟩
  · exact ⟨rfl, rfl, rfl, rfl⟩

theorem keepsOutcomes_commit {o : Oracle} {db : Db} {pc : Pc} {τ : Txn} {k : Nat → Pc}
    (hcommit : pc.Commits cfg o db τ k)
    (hfail : ∀ e error, pc = .planFail e error → ∀ x ∈ db.executions, x.id = e →
      x.status.isTerminal = true → x.status = .failed ∧ x.error = some error) :
    db.KeepsOutcomes (db.commit o.now τ) := by
  cases hcommit with
  | planFail e error =>
      refine keepsOutcomes_updateExecution fun x hx hid hs _ => ?_
      obtain ⟨hst, herr⟩ := hfail e error rfl x hx hid hs
      exact ⟨hst.symm, rfl, herr.symm⟩
  | planStarted e => exact keepsOutcomes_updateExecution fun x _ _ _ _ => ⟨rfl, rfl, rfl⟩
  | planGuard | planRunning | finalizeComplete | finalizeFail =>
      refine keepsOutcomes_updateExecution fun x _ _ hs hg => ?_
      simp only [ExecutionUpdate.guard, decide_eq_true_eq] at hg
      simp [hg, ExecutionStatus.isTerminal] at hs
  | _ => exact .of_subset fun _ hx => hx

/-- A finished execution stays finished, even where its outcome is replaced. -/
theorem terminal_commit {o : Oracle} {db : Db} {pc : Pc} {τ : Txn} {k : Nat → Pc}
    (hcommit : pc.Commits cfg o db τ k) {x : Execution} (hx : x ∈ db.executions)
    (hs : x.status.isTerminal = true) :
    ∃ x' ∈ (db.commit o.now τ).executions, x'.id = x.id ∧ x'.status.isTerminal = true := by
  by_cases hfail : ∃ e error, pc = .planFail e error
  · obtain ⟨e, error, rfl⟩ := hfail
    cases hcommit
    refine ⟨_, Table.update_mem (ExecutionUpdate.set_id _ _) hx, ?_⟩
    split
    · exact ⟨rfl, rfl⟩
    · exact ⟨rfl, hs⟩
  · obtain ⟨x', hx', hid, hst, -, -⟩ :=
      keepsOutcomes_commit hcommit (fun e error heq => absurd ⟨e, error, heq⟩ hfail) x hx hs
    exact ⟨x', hx', hid, hst ▸ hs⟩

theorem terminal_step (h : s.step cfg ev = some s') {x : Execution} (hx : x ∈ s.db.executions)
    (hs : x.status.isTerminal = true) :
    ∃ x' ∈ s'.db.executions, x'.id = x.id ∧ x'.status.isTerminal = true := by
  cases State.stepsTo h with
  | createExecution userRequest now =>
      exact ⟨x, State.mem_createExecution.2 (.inl hx), rfl, hs⟩
  | commit hid o pc τ k hpc hlive hact => exact terminal_commit (Pc.commits_of_act hact) hx hs
  | dequeue | promoteDue | recoverStaleTasks | move | send | redeliver | raise | crash =>
      exact ⟨x, hx, rfl, hs⟩

/-- A step that meets no finished execution with `_fail_execution` keeps all recorded outcomes. -/
theorem keepsOutcomes_step (h : overwrites s ev = false) (hs : s.step cfg ev = some s') :
    s.db.KeepsOutcomes s'.db := by
  cases State.stepsTo hs with
  | createExecution userRequest now =>
      exact .of_subset fun x hx => State.mem_createExecution.2 (.inl hx)
  | commit hid o pc τ k hpc hlive hact =>
      refine keepsOutcomes_commit (Pc.commits_of_act hact) ?_
      rintro e error rfl x hx hid' hst
      simp only [overwrites, State.live?, hpc, List.any_eq_false] at h
      simpa [hid', hst] using h x hx
  | dequeue | promoteDue | recoverStaleTasks | move | send | redeliver | raise | crash =>
      exact .of_subset fun _ hx => hx

/-- Where it does meet one, the recorded outcome is replaced. -/
theorem not_keepsOutcomes_step (h : overwrites s ev = true) (hs : s.step cfg ev = some s') :
    ¬ s.db.KeepsOutcomes s'.db := by
  intro hkeeps
  unfold overwrites at h
  split at h
  · next hid o =>
      split at h
      · next e error hlive =>
          obtain ⟨x, hx, hcond⟩ := List.any_eq_true.1 h
          obtain ⟨⟨hid', hst⟩, hne⟩ :
              (x.id = e ∧ x.status.isTerminal = true) ∧ (x.status ≠ .failed ∨ x.error ≠ some error) := by
            simpa using hcond
          obtain ⟨x', hx', hid'', hstatus, -, herror⟩ := hkeeps x hx hst
          have hs' := State.eq_perform hlive hs
          have hmem : (ExecutionUpdate.failExecution error).set o.now x ∈ s'.db.executions := by
            have := Table.update_mem ((ExecutionUpdate.failExecution error).set_id o.now)
              (p := (ExecutionUpdate.failExecution error).guard) (k := e) hx
            rw [if_pos ⟨hid', rfl⟩] at this
            rw [hs']
            exact this
          obtain rfl := Table.eq_of_key_eq hx' hmem hid''
          exact hne.elim (· hstatus.symm) (· herror.symm)
      · simp at h
  · simp at h

/-- Terminal execution states are absorbing in every run that never meets a finished execution with
    `_fail_execution`; and a single step keeps the recorded outcomes exactly when it does not. -/
theorem terminal_absorbing :
    (∀ s s', (queueMode cfg).Reachable (fun s ev => overwrites s ev = false) s →
      (queueMode cfg).Path (fun s ev => overwrites s ev = false) s s' →
        s.db.KeepsOutcomes s'.db) ∧
    ∀ s ev s', (queueMode cfg).Reachable anyEvent s → (queueMode cfg).step s ev = some s' →
      (s.db.KeepsOutcomes s'.db ↔ overwrites s ev = false) := by
  refine ⟨fun s s' h hp => ?_, fun s ev s' _ hs => ⟨fun hk => ?_, fun h => keepsOutcomes_step h hs⟩⟩
  · exact h.stable (R := fun s s' => s.db.KeepsOutcomes s'.db) (.of_subset fun _ hx => hx)
      (fun _ _ _ _ hk hE hs => hk.trans (keepsOutcomes_step hE hs)) hp
  · by_contra hne
    exact not_keepsOutcomes_step (by simpa using hne) hs hk

/-- The duplicate plan job of a COMPLETED execution does nothing when its provider is there. -/
theorem terminal_absorbing_fallback :
    ∃ s s', (queueMode (fallbackConfig {})).Path (fun s ev => overwrites s ev = false) s s' ∧
      (∃ x ∈ s.db.executions, x.status = .completed) ∧ s.db.KeepsOutcomes s'.db := by
  obtain ⟨trace, s', hrun, hcheck⟩ := (queueMode (fallbackConfig {})).exists_run
    (E := fun s ev => overwrites s ev = false) (fun s ev => !overwrites s ev)
    (fun trace _ => trace.any fun p => p.1.db.executions.rows.any fun x => x.status = .completed)
    (completionSchedule ++ .redeliver (.plan 1) :: runs 5 3 { now := 1 }) (by simp)
    (by decide +kernel)
  obtain ⟨⟨s, ev⟩, hmem, hx⟩ :
      ∃ p ∈ trace, ∃ x ∈ p.1.db.executions.rows, x.status = .completed := by
    simpa using hcheck
  have hp := hrun.path_of_mem hmem
  exact ⟨s, s', hp, hx, terminal_absorbing.1 s s' (hrun.mem_trace hmem).1 hp⟩

/-- A COMPLETED execution can become FAILED: `_fail_execution` does not look at the status. -/
theorem terminal_execution_overwritten :
    ∃ s s', (queueMode (fallbackConfig {})).Reachable anyEvent s ∧
      (queueMode (fallbackConfig {})).Path anyEvent s s' ∧
      (∃ x ∈ s.db.executions, x.id = 1 ∧ x.status = .completed) ∧
      (∃ x ∈ s'.db.executions, x.id = 1 ∧ x.status = .failed) ∧ ¬ s.db.KeepsOutcomes s'.db := by
  obtain ⟨trace, s', hrun, hcheck⟩ := (queueMode (fallbackConfig {})).exists_run (E := anyEvent)
    (fun _ _ => true)
    (fun trace s' =>
      (trace.any fun p => p.1.db.executions.rows.any fun x => x.id = 1 && x.status = .completed) &&
        s'.db.executions.rows.any fun x => x.id = 1 && x.status = .failed)
    (completionSchedule ++
      [.redeliver (.plan 1), .raise 5 ⟨"ValueError", "no key"⟩, .run 5 { now := 1 }])
    (fun _ _ _ => trivial) (by decide +kernel)
  obtain ⟨⟨⟨s, ev⟩, hmem, hx⟩, hx'⟩ :
      (∃ p ∈ trace, ∃ x ∈ p.1.db.executions.rows, x.id = 1 ∧ x.status = .completed) ∧
        ∃ x ∈ s'.db.executions.rows, x.id = 1 ∧ x.status = .failed := by
    simpa using hcheck
  refine ⟨s, s', (hrun.mem_trace hmem).1, hrun.path_of_mem hmem, hx, hx', fun hkeeps => ?_⟩
  obtain ⟨x, hx, hid, hs⟩ := hx
  obtain ⟨x', hx', hid', hs'⟩ := hx'
  obtain ⟨y, hy, hyid, hys, -, -⟩ := hkeeps x hx (by simp [hs, ExecutionStatus.isTerminal])
  obtain rfl := Table.eq_of_key_eq hy hx' (hyid.trans (hid.trans hid'.symm))
  simp [hs, hs'] at hys

end AgenticExecution
