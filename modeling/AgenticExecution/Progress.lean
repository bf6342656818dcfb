import AgenticExecution.Outstanding

set_option autoImplicit false

/-! # Progress

Queue mode does not get stuck: when nothing is left to do, every execution and every task is finished.
In a quiescent state nobody carries an obligation, so no row asks for anything; the task with the
smallest position among those that are not finished would, since all its dependencies are. -/

namespace AgenticExecution

variable {cfg : Config} {s : State} {ev : Event}

/-- No job is left and no handler is in progress. -/
structure State.Quiescent (s : State) : Prop where
  queue : s.redis.queue = []
  delayed : ∀ entry, entry ∉ s.redis.delayed
  handlers : ∀ pc ∈ s.handlers, pc = .done

/-- No process stops, no call of a handler raises, and `_retry_or_fail` can compute the
    `next_attempt_at` of every retry. -/
def Undisturbed (cfg : Config) (s : State) : Event → Prop
  | .raise .. | .crash _ => False
  | .run hid o => ∀ pc ∈ s.handlers[hid]?, ¬ pc.Overflows cfg o
  | _ => True

instance (cfg : Config) (o : Oracle) (pc : Pc) : Decidable (pc.Overflows cfg o) := by
  cases pc <;> unfold Pc.Overflows <;> infer_instance

instance (cfg : Config) (s : State) (ev : Event) : Decidable (Undisturbed cfg s ev) :=
  match ev with
  | .raise .. | .crash _ => inferInstanceAs (Decidable False)
  | .run hid o => inferInstanceAs (Decidable (∀ pc ∈ s.handlers[hid]?, ¬ pc.Overflows cfg o))
  | .createExecution .. | .dequeue | .promoteDue | .recoverStaleTasks | .redeliver _ =>
    inferInstanceAs (Decidable True)

theorem Undisturbed.keeps (h : Undisturbed cfg s ev) (n : Need) : Keeps cfg n s ev := by
  cases ev with
  | run hid o => exact fun pc hpc hover => absurd hover (h pc hpc)
  | raise | crash => cases h
  | createExecution | dequeue | promoteDue | recoverStaleTasks | redeliver => trivial

/-- The handler has returned. -/
def Pc.isDone : Pc → Bool
  | .done => true
  | _ => false

/-- `Quiescent` as a check. -/
def State.isQuiescent (s : State) : Bool :=
  s.redis.queue.isEmpty && s.redis.delayed.rows.isEmpty && s.handlers.all Pc.isDone

theorem State.quiescent_of_check (h : s.isQuiescent = true) : s.Quiescent := by
  obtain ⟨⟨hqueue, hdelayed⟩, hdone⟩ :
      (s.redis.queue.isEmpty = true ∧ s.redis.delayed.rows.isEmpty = true) ∧
        s.handlers.all Pc.isDone = true := by
    simpa only [State.isQuiescent, Bool.and_eq_true] using h
  refine ⟨List.isEmpty_iff.1 hqueue, fun entry hentry => ?_, fun pc hpc => ?_⟩
  · rw [Table.mem_def, List.isEmpty_iff.1 hdelayed] at hentry
    cases hentry
  · have := List.all_eq_true.1 hdone pc hpc
    cases pc <;> simp_all [Pc.isDone]

/-- Nobody carries anything in a quiescent state. -/
theorem State.Quiescent.not_carried (h : s.Quiescent) (n : Need) : ¬ s.Carried n := by
  refine Handover.not_carried ?_ ?_
  · intro hc
    cases n with
    | job job =>
        cases job with
        | plan e =>
            rw [Redis.Carries, h.queue] at hc
            cases hc
        | task tid =>
            rw [Redis.Carries, h.queue] at hc
            rcases hc with hc | ⟨entry, hentry, -⟩
            · cases hc
            · exact h.delayed entry hentry
    | planner | pass | worker | finish => cases hc
  · intro pc hpc hc
    obtain rfl := h.handlers pc hpc
    cases n with
    | job job =>
        cases job with
        | plan e =>
            rcases hc with hj | ⟨error, herr⟩
            · cases hj
            · cases herr
        | task tid => cases hc
    | planner => cases hc
    | pass | finish => rcases hc with hc | hc <;> cases hc
    | worker tid =>
        obtain ⟨st, hw⟩ := hc
        cases hw

/-- A task all of whose dependencies are finished is resolved. -/
theorem Db.resolved_of_terminal {db : Db} {t : Task}
    (h : ∀ d ∈ db.tasks, t.DependsOn d → d.status.isTerminal = true) : db.Resolved t := by
  by_cases hfailed : ∃ d ∈ db.tasks, t.DependsOn d ∧ d.status = .failed
  · exact .inl hfailed
  · refine .inr fun d hd hdep => ?_
    cases hs : d.status with
    | completed => rfl
    | failed => exact absurd ⟨d, hd, hdep, hs⟩ hfailed
    | pending | running | retrying => simpa [hs, TaskStatus.isTerminal] using h d hd hdep

/-- If no task asks for anything, all tasks are finished: by induction on the position, since
    dependencies come first. -/
theorem Db.WellFormed.all_terminal {db : Db} (hwf : db.WellFormed)
    (hjob : ∀ tid, ¬ db.Needs (.job (.task tid))) (hpass : ∀ e tid, ¬ db.Needs (.pass e tid))
    (hworker : ∀ tid, ¬ db.Needs (.worker tid)) :
    ∀ (n : Nat), ∀ t ∈ db.tasks, t.orderIndex = n → t.status.isTerminal = true := by
  intro n
  induction n using Nat.strong_induction_on with
  | _ n ih =>
      intro t ht hn
      have hdeps : ∀ d ∈ db.tasks, t.DependsOn d → d.status.isTerminal = true := by
        intro d hd hdep
        have hlt := (hwf.depends t ht _ hdep.2).1
        obtain ⟨m, hm⟩ := Int.eq_ofNat_of_zero_le (hwf.nonneg d hd)
        exact ih m (by omega) d hd hm
      cases hs : t.status with
      | completed | failed => rfl
      | running => exact absurd ⟨t, ht, rfl, hs⟩ (hworker t.id)
      | retrying => exact absurd ⟨t, ht, rfl, .inl hs⟩ (hjob t.id)
      | pending =>
          cases henq : t.enqueued with
          | true => exact absurd ⟨t, ht, rfl, .inr ⟨hs, henq⟩⟩ (hjob t.id)
          | false =>
              exact absurd ⟨t, ht, rfl, rfl, ⟨hs, henq⟩, Db.resolved_of_terminal hdeps⟩
                (hpass t.executionId t.id)

/-- In every run in which `_retry_or_fail` can always compute `next_attempt_at`, a state without jobs
    and without handlers in progress has only finished executions and finished tasks. -/
theorem quiescent_finished (h : (queueMode cfg).Reachable (Undisturbed cfg) s)
    (hquiet : s.Quiescent) :
    (∀ x ∈ s.db.executions, x.status = .completed ∨ x.status = .failed) ∧
      ∀ t ∈ s.db.tasks, t.status = .completed ∨ t.status = .failed := by
  have hwf := (reachable_inv h).wellFormed
  have hnone : ∀ n, ¬ s.db.Needs n := fun n hneed =>
    hquiet.not_carried n (reachable_carried (fun _ _ hE => hE.keeps n) h hneed)
  have hterm : ∀ t ∈ s.db.tasks, t.status.isTerminal = true := by
    intro t ht
    obtain ⟨n, hn⟩ := Int.eq_ofNat_of_zero_le (hwf.nonneg t ht)
    exact hwf.all_terminal (fun _ => hnone _) (fun _ _ => hnone _) (fun _ => hnone _) n t ht hn
  constructor
  · intro x hx
    cases hs : x.status with
    | completed => exact .inl rfl
    | failed => exact .inr rfl
    | pending => exact absurd ⟨x, hx, rfl, hs⟩ (hnone (.job (.plan x.id)))
    | planning => exact absurd ⟨x, hx, rfl, hs⟩ (hnone (.planner x.id))
    | running =>
        exact absurd ⟨⟨x, hx, rfl, hs⟩, fun t ht _ => hterm t ht⟩ (hnone (.finish x.id))
  · intro t ht
    have := hterm t ht
    cases hs : t.status <;> simp_all [TaskStatus.isTerminal]

/-- A single task that is retried once, up to the end of the second worker. -/
def retriedOnce : List Event :=
  .createExecution "q" 0 :: runs 0 1 { now := 0 } ++ .dequeue :: runs 1 17 { now := 0 } ++
    .dequeue :: runs 2 18 (raising 0) ++ .promoteDue :: runs 3 4 { now := 1000 } ++
    .dequeue :: runs 4 19 { now := 1000 }

theorem quiescent_finished_retry :
    ∃ s, (queueMode (fallbackConfig (singleTask 1))).Reachable
        (Undisturbed (fallbackConfig (singleTask 1))) s ∧ s.Quiescent ∧
      ∀ t ∈ s.db.tasks, t.status = .completed ∨ t.status = .failed := by
  obtain ⟨s, hreach, hcheck⟩ := (queueMode (fallbackConfig (singleTask 1))).exists_reachable
    (E := Undisturbed (fallbackConfig (singleTask 1)))
    (fun s ev => decide (Undisturbed (fallbackConfig (singleTask 1)) s ev)) State.isQuiescent
    retriedOnce (fun _ _ hE => of_decide_eq_true hE) (by decide +kernel)
  have hquiet := State.quiescent_of_check hcheck
  exact ⟨s, hreach, hquiet, (quiescent_finished hreach hquiet).2⟩

/-- A backoff that leads past the last representable date. -/
def longBackoff : Config :=
  fallbackConfig
    { singleTask 1 with retryBackoffBaseSeconds := 10 ^ 12, retryBackoffMaxSeconds := 10 ^ 12 }

/-- When `next_attempt_at` cannot be computed, queue mode gets stuck: nothing is left to do, and the
    execution and its task are RUNNING. -/
theorem stuck_when_backoff_overflows :
    ∃ s, (queueMode longBackoff).Reachable FaultFree s ∧ s.Quiescent ∧
      (∃ x ∈ s.db.executions, x.status = .running) ∧ ∃ t ∈ s.db.tasks, t.status = .running := by
  obtain ⟨s, hreach, hcheck⟩ := (queueMode longBackoff).exists_reachable (E := FaultFree)
    (fun s ev => decide (FaultFree s ev))
    (fun s => s.isQuiescent && s.db.executions.rows.any (fun x => x.status = .running) &&
      s.db.tasks.rows.any fun t => t.status = .running)
    (.createExecution "q" 0 :: runs 0 1 { now := 0 } ++ .dequeue :: runs 1 17 { now := 0 } ++
      .dequeue :: runs 2 11 (raising 0))
    (fun _ _ hE => of_decide_eq_true hE) (by decide +kernel)
  obtain ⟨⟨hquiet, hx⟩, ht⟩ : (s.isQuiescent = true ∧
      ∃ x ∈ s.db.executions.rows, x.status = .running) ∧
        ∃ t ∈ s.db.tasks.rows, t.status = .running := by
    simpa only [Bool.and_eq_true, List.any_eq_true, decide_eq_true_eq] using hcheck
  exact ⟨s, hreach, State.quiescent_of_check hquiet, hx, ht⟩

end AgenticExecution
