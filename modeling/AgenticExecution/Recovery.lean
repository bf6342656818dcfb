import AgenticExecution.Progress

set_option autoImplicit false

/-! # Crash recovery

What is left of an unfinished execution when handlers stop or raise. The reaper replaces a worker, so
a RUNNING task needs nobody; everything else is handed over from effect to effect, and is lost when a
handler goes down between the two effects of a hand-over while nobody else carries it: between the
`BLPOP` and the claim, `_mark_enqueued` and the `RPUSH`, RETRYING and the `ZADD`, the `ZREM` and the
`RPUSH`, the last commit on a task and the pass over its execution, or anywhere in the planner. -/

namespace AgenticExecution

variable {cfg : Config} {s s' : State} {ev : Event} {pc : Pc}

/-- What must not get lost: everything but the workers, which the reaper replaces, and the final
    update of the execution. -/
def Need.recoverable : Need → Bool
  | .job _ | .planner _ | .pass .. => true
  | .worker _ | .finish _ => false

/-- The event makes no handler drop a job, a planning or a pass that is still needed. -/
def LossFree (cfg : Config) (s : State) (ev : Event) : Prop :=
  ∀ n : Need, n.recoverable = true → Keeps cfg n s ev

/-- The ways on for an unfinished task. -/
inductive Recoverable (s : State) (t : Task) : Prop
  /-- The reaper will take it. -/
  | running (h : t.status = .running)
  | queued (h : .task t.id ∈ s.redis.queue)
  | delayed (entry : TaskId × Time) (hentry : entry ∈ s.redis.delayed) (hid : entry.1 = t.id)
  /-- A handler is about to claim it, to push its job, or to schedule it. -/
  | held (pc : Pc) (hpc : pc ∈ s.handlers) (h : pc.job? = some (.task t.id))
  /-- A dependency is unfinished. -/
  | waits (d : Task) (hd : d ∈ s.db.tasks) (hdep : t.DependsOn d) (h : d.status.isTerminal = false)
  /-- A pass over its execution is under way or still to come. -/
  | pass (pc : Pc) (hpc : pc ∈ s.handlers) (h : pc.Owes t.executionId ∨ pc.Decides t.executionId t.id)

/-! ## Points at which a handler may go down -/

/-- The handler carries nothing that must not get lost: a worker between its claim and its report, a
    promoter between two members, a reaper that has not released a task yet. -/
def Pc.isIdle : Pc → Bool
  | .done | .taskStarted _ | .taskRefresh _ | .taskCheck _ | .taskStored _ | .contextSelect _
  | .contextLoad .. | .agentStart .. | .agentRun .. | .taskRollback .. | .persist ..
  | .persistUpdate .. | .retryOrFail _ _ (.executeTask _) | .promoteSelect | .promoteNext _
  | .recoverSelect => true
  | _ => false

theorem Pc.not_carries_of_isIdle (h : pc.isIdle = true) {n : Need} (hn : n.recoverable = true) :
    ¬ pc.Carries n := by
  intro hc
  cases n with
  | job job =>
      cases job with
      | plan e =>
          rcases hc with hj | ⟨error, rfl⟩
          · cases pc <;> simp_all [Pc.job?, Pc.isIdle]
          · cases h
      | task tid => cases pc <;> simp_all [Pc.Carries, Pc.job?, Pc.isIdle]
  | planner e => cases pc <;> simp_all [Pc.Carries, Pc.Planning, Pc.isIdle]
  | pass e tid =>
      rcases hc with howes | hd
      · cases pc with
        | retryOrFail task error k =>
            cases k with
            | executeTask => cases howes
            | recoverStaleTasks => cases h
        | _ => simp_all [Pc.Owes, Pc.isIdle]
      · cases pc <;> simp_all [Pc.Decides, Pc.isIdle]
  | worker | finish => cases hn

/-- Handlers only stop or raise at idle points, and no `_retry_or_fail` raises. -/
def IdleFaults (cfg : Config) (s : State) : Event → Prop
  | .raise hid _ | .crash hid => ∀ pc ∈ s.handlers[hid]?, pc.isIdle = true
  | .run hid o => ∀ pc ∈ s.handlers[hid]?, ¬ pc.Overflows cfg o
  | _ => True

instance (cfg : Config) (s : State) (ev : Event) : Decidable (IdleFaults cfg s ev) :=
  match ev with
  | .raise hid _ | .crash hid => inferInstanceAs (Decidable (∀ pc ∈ s.handlers[hid]?, pc.isIdle = true))
  | .run hid o => inferInstanceAs (Decidable (∀ pc ∈ s.handlers[hid]?, ¬ pc.Overflows cfg o))
  | .createExecution .. | .dequeue | .promoteDue | .recoverStaleTasks | .redeliver _ =>
    inferInstanceAs (Decidable True)

/-- Such faults lose nothing. -/
theorem IdleFaults.lossFree (h : IdleFaults cfg s ev) : LossFree cfg s ev := by
  intro n hn
  cases ev with
  | run hid o => exact fun pc hpc hover => absurd hover (h pc hpc)
  | raise hid exc => exact fun pc hpc _ hc => absurd hc (Pc.not_carries_of_isIdle (h pc hpc) hn)
  | crash hid => exact fun pc hpc _ => Pc.not_carries_of_isIdle (h pc hpc) hn
  | createExecution | dequeue | promoteDue | recoverStaleTasks | redeliver => trivial

/-! ## No lost work -/

/-- An unfinished task has a way on as long as its obligations are carried. -/
theorem recoverable_of_carried (hneeds : ∀ n : Need, n.recoverable = true → s.db.Needs n → s.Carried n)
    {t : Task} (ht : t ∈ s.db.tasks) (hlive : t.status.isTerminal = false) : Recoverable s t := by
  have hjob : t.Queued → Recoverable s t := by
    intro hq
    rcases hneeds (.job (.task t.id)) rfl ⟨t, ht, rfl, hq⟩ with
      (hqueue | ⟨entry, hentry, hid⟩) | ⟨pc, hpc, hj⟩
    · exact .queued hqueue
    · exact .delayed entry hentry hid
    · exact .held pc hpc hj
  cases hs : t.status with
  | completed | failed => simp [hs, TaskStatus.isTerminal] at hlive
  | running => exact .running hs
  | retrying => exact hjob (.inl hs)
  | pending =>
      cases henq : t.enqueued with
      | true => exact hjob (.inr ⟨hs, henq⟩)
      | false =>
          by_cases hwaits : ∃ d ∈ s.db.tasks, t.DependsOn d ∧ d.status.isTerminal = false
          · obtain ⟨d, hd, hdep, hlive'⟩ := hwaits
            exact .waits d hd hdep hlive'
          · have hres : s.db.Resolved t := by
              refine Db.resolved_of_terminal fun d hd hdep => ?_
              by_contra hne
              exact hwaits ⟨d, hd, hdep, by simpa using hne⟩
            rcases hneeds (.pass t.executionId t.id) rfl ⟨t, ht, rfl, rfl, ⟨hs, henq⟩, hres⟩ with
              hstore | ⟨pc, hpc, hc⟩
            · cases hstore
            · exact .pass pc hpc hc

/-- In every run in which no fault hits a handler that carries something still needed, a PENDING or
    PLANNING execution has a plan job in the queue or a live planner, and every unfinished task has a
    way on. -/
theorem no_lost_work (h : (queueMode cfg).Reachable (LossFree cfg) s) :
    (∀ x ∈ s.db.executions, x.status = .pending ∨ x.status = .planning →
      .plan x.id ∈ s.redis.queue ∨
        ∃ pc ∈ s.handlers, pc.job? = some (.plan x.id) ∨ pc.Planning x.id) ∧
    ∀ t ∈ s.db.tasks, t.status.isTerminal = false → Recoverable s t := by
  have hneeds : ∀ n : Need, n.recoverable = true → s.db.Needs n → s.Carried n :=
    fun n hn hneed => reachable_carried (fun _ _ hE => hE n hn) h hneed
  constructor
  · rintro x hx (hs | hs)
    · rcases hneeds (.job (.plan x.id)) rfl ⟨x, hx, rfl, hs⟩ with
        hqueue | ⟨pc, hpc, hj | ⟨error, rfl⟩⟩
      · exact .inl hqueue
      · exact .inr ⟨pc, hpc, .inl hj⟩
      · exact .inr ⟨_, hpc, .inr rfl⟩
    · rcases hneeds (.planner x.id) rfl ⟨x, hx, rfl, hs⟩ with hstore | ⟨pc, hpc, hp⟩
      · cases hstore
      · exact .inr ⟨pc, hpc, .inr hp⟩
  · intro t ht hlive
    exact recoverable_of_carried hneeds ht hlive

/-- A worker stops while its agent runs, and the reaper releases the task. -/
theorem no_lost_work_crash :
    ∃ s, (queueMode (fallbackConfig (singleTask 1))).Reachable
        (LossFree (fallbackConfig (singleTask 1))) s ∧
      ∃ t ∈ s.db.tasks, t.status = .retrying ∧ Recoverable s t := by
  obtain ⟨s, hreach, hcheck⟩ := (queueMode (fallbackConfig (singleTask 1))).exists_reachable
    (E := IdleFaults (fallbackConfig (singleTask 1)))
    (fun s ev => decide (IdleFaults (fallbackConfig (singleTask 1)) s ev))
    (fun s => s.db.tasks.rows.any fun t => t.status = .retrying)
    (.createExecution "q" 0 :: runs 0 1 { now := 0 } ++ .dequeue :: runs 1 17 { now := 0 } ++
      .dequeue :: runs 2 8 { now := 0 } ++ .crash 2 :: .recoverStaleTasks ::
      runs 3 3 { now := 1000 })
    (fun _ _ hE => of_decide_eq_true hE) (by decide +kernel)
  obtain ⟨t, ht, hs⟩ := List.any_eq_true.1 hcheck
  have hretrying : t.status = .retrying := of_decide_eq_true hs
  have hreach' := hreach.mono fun _ _ hE => hE.lossFree
  refine ⟨s, hreach', t, ht, hretrying, (no_lost_work hreach').2 t ht ?_⟩
  rw [hretrying]
  rfl

/-- No faults but stopping processes, and each job is delivered once. -/
def CrashesOnly (_ : State) : Event → Prop
  | .redeliver _ | .raise .. => False
  | _ => True

instance (s : State) (ev : Event) : Decidable (CrashesOnly s ev) :=
  match ev with
  | .redeliver _ | .raise .. => inferInstanceAs (Decidable False)
  | .createExecution .. | .run .. | .crash _ | .dequeue | .promoteDue | .recoverStaleTasks =>
    inferInstanceAs (Decidable True)

/-- A worker that stops between the `BLPOP` of a plan job and its claim loses the execution: it stays
    PENDING, without a job and without a planner. -/
theorem plan_job_lost :
    ∃ s, (queueMode (fallbackConfig {})).Reachable CrashesOnly s ∧
      ∃ x ∈ s.db.executions, x.status = .pending ∧
        ¬ (.plan x.id ∈ s.redis.queue ∨
          ∃ pc ∈ s.handlers, pc.job? = some (.plan x.id) ∨ pc.Planning x.id) := by
  obtain ⟨s, hreach, hcheck⟩ := (queueMode (fallbackConfig {})).exists_reachable (E := CrashesOnly)
    (fun s ev => decide (CrashesOnly s ev))
    (fun s => s.isQuiescent && s.db.executions.rows.any fun x => x.status = .pending)
    (.createExecution "q" 0 :: runs 0 1 { now := 0 } ++ [.dequeue, .crash 1])
    (fun _ _ hE => of_decide_eq_true hE) (by decide +kernel)
  obtain ⟨hquiet, x, hx, hs⟩ :
      s.isQuiescent = true ∧ ∃ x ∈ s.db.executions.rows, x.status = .pending := by
    simpa only [Bool.and_eq_true, List.any_eq_true, decide_eq_true_eq] using hcheck
  have hquiescent := State.quiescent_of_check hquiet
  refine ⟨s, hreach, x, hx, hs, ?_⟩
  rintro (hmem | ⟨pc, hpc, hplan⟩)
  · rw [hquiescent.queue] at hmem
    cases hmem
  · obtain rfl := hquiescent.handlers pc hpc
    rcases hplan with hplan | hplan <;> cases hplan

end AgenticExecution
