import AgenticExecution.Safety

set_option autoImplicit false

/-! # The life of a worker

Seen from the task it works on, a handler of `execute_task` is in one of a few stages, from the claim
of the task to the commit that reports how the run ended. `Pc.work` forgets the rest of the program
point, and the lemmas below are all a handler can do to its stage. -/

namespace AgenticExecution

variable {cfg : Config} {s s' : State} {o : Oracle} {db : Db} {r : Redis} {pc pc' : Pc} {τ : Txn}
  {c : Command} {k : Nat → Pc}

/-- How far a worker is with the task it claimed. -/
inductive Stage
  /-- The agent was not started yet. -/
  | claimed
  /-- The agent runs. -/
  | running
  /-- The agent returned, and the output is to be persisted. -/
  | returned (output : AgentOutput)
  /-- A result is stored already; only the status is to be updated. -/
  | stored
  /-- The run failed, and the failure is to be reported. -/
  | failed

/-- The task a worker holds, with its stage. -/
def Pc.work : Pc → Option (TaskId × Stage)
  | .taskStarted tid | .taskRefresh tid => some (tid, .claimed)
  | .taskCheck t | .contextSelect t | .contextLoad t .. | .agentStart t _ => some (t.id, .claimed)
  | .agentRun t _ => some (t.id, .running)
  | .persist t output => some (t.id, .returned output)
  | .taskStored t | .persistUpdate t .. => some (t.id, .stored)
  | .taskRollback t _ | .retryOrFail t _ (.executeTask _) => some (t.id, .failed)
  | _ => none

@[simp ↓] theorem ScheduleCaller.resume_work (k : ScheduleCaller) : k.resume.work = none :=
  k.observe_resume Pc.work rfl fun _ => rfl

@[simp ↓] theorem recoverNext_work (stale : List Task) (affected : List ExecutionId) :
    (recoverNext stale affected).work = none :=
  observe_recoverNext Pc.work (fun _ => rfl) (fun _ _ _ _ _ => rfl) stale affected

@[simp ↓] theorem RetryCaller.resume_work (k : RetryCaller) : k.resume.work = none :=
  k.observe_resume Pc.work (fun _ => rfl) (fun _ => rfl) fun _ _ _ _ _ => rfl

@[simp ↓] theorem finalizeTasks_work (x : Execution) (k : ScheduleCaller) (tasks : List Task) :
    (finalizeTasks x k tasks).work = none :=
  observe_finalizeTasks Pc.work rfl (fun _ => rfl) (fun _ _ _ _ _ => rfl) (fun _ _ _ => rfl) x k tasks

@[simp] theorem Job.handler_work (job : Job) : job.handler.work = none := by
  cases job <;> rfl

@[simp] theorem ScheduleCaller.raised_work (exc : Exn) (k : ScheduleCaller) :
    (k.raised exc).work = none := by
  cases k <;> rfl

/-- An exception ends the work, or it is the failure to report. -/
theorem Pc.raised_work (exc : Exn) (pc : Pc) :
    (pc.raised exc).work = none ∨ ∃ tid, (pc.raised exc).work = some (tid, .failed) ∧
      (pc.work = some (tid, .claimed) ∨ pc.work = some (tid, .running)) := by
  cases pc with
  | contextSelect t => exact .inr ⟨t.id, rfl, .inl rfl⟩
  | contextLoad t => exact .inr ⟨t.id, rfl, .inl rfl⟩
  | agentStart t => exact .inr ⟨t.id, rfl, .inl rfl⟩
  | agentRun t => exact .inr ⟨t.id, rfl, .inr rfl⟩
  | scheduleGet | scheduleSelect | scheduleScan | schedulePush | finalizeGet | finalizeSelect
    | finalizeLoad | finalizeComplete | finalizeFail => exact .inl (ScheduleCaller.raised_work exc _)
  | _ => exact .inl rfl

/-- A worker only goes from stage to stage: it starts its agent, the agent returns or raises, a
    result turns out to be stored; or it gives up its work. -/
inductive Stage.Next (o : Oracle) (tid : TaskId) : Stage → Option (TaskId × Stage) → Prop
  | stay (st : Stage) : Next o tid st (some (tid, st))
  | start : Next o tid .claimed (some (tid, .running))
  | claimedStored : Next o tid .claimed (some (tid, .stored))
  | returns (output : AgentOutput) (h : o.agent = .ok output) :
      Next o tid .running (some (tid, .returned output))
  | raises : Next o tid .running (some (tid, .failed))
  | returnedStored (output : AgentOutput) : Next o tid (.returned output) (some (tid, .stored))
  | drop (st : Stage) : Next o tid st none

theorem Pc.Moves.work (h : pc.Moves cfg o db r pc') :
    pc.work = none ∧ pc'.work = none ∨ ∃ tid st, pc.work = some (tid, st) ∧
      Stage.Next o tid st pc'.work := by
  cases h with
  | refreshNotFound tid => exact .inr ⟨tid, .claimed, rfl, .drop _⟩
  | refreshed tid task hfind =>
      obtain ⟨-, rfl⟩ := Table.find?_eq_some_iff.1 hfind
      exact .inr ⟨task.id, .claimed, rfl, .stay _⟩
  | resultStored task => exact .inr ⟨task.id, .claimed, rfl, .claimedStored⟩
  | noResult task | contextEmpty task | contextSelect task | contextDone task | contextNext task =>
      exact .inr ⟨task.id, .claimed, rfl, .stay _⟩
  | agentStart task => exact .inr ⟨task.id, .claimed, rfl, .start⟩
  | agentReturned task context output hagent =>
      exact .inr ⟨task.id, .running, rfl, .returns output hagent⟩
  | agentRaised task => exact .inr ⟨task.id, .running, rfl, .raises⟩
  | rollbackFound task error fresh hfind =>
      obtain ⟨-, hid⟩ := Table.find?_eq_some_iff.1 hfind
      refine .inr ⟨task.id, .failed, rfl, ?_⟩
      rw [Pc.work, hid]
      exact .stay _
  | rollbackNotFound task => exact .inr ⟨task.id, .failed, rfl, .drop _⟩
  | integrityError task output => exact .inr ⟨task.id, .returned output, rfl, .returnedStored output⟩
  | backoffOverflow task error k =>
      cases k with
      | executeTask => exact .inr ⟨task.id, .failed, rfl, .drop _⟩
      | recoverStaleTasks => exact .inl ⟨rfl, rfl⟩
  | _ => exact .inl ⟨rfl, by simp [Pc.work]⟩

/-- Only a successful claim takes up work. -/
theorem Pc.Commits.work (n : Nat) (h : pc.Commits cfg o db τ k) :
    (k n).work = pc.work ∨ (k n).work = none ∨
      ∃ tid, pc = .taskClaim tid ∧ n = 1 ∧ (k n).work = some (tid, .claimed) := by
  cases h with
  | taskClaim tid =>
      by_cases hn : n = 1
      · exact .inr (.inr ⟨tid, rfl, hn, by simp [hn, Pc.work]⟩)
      · exact .inr (.inl (by simp [hn, Pc.work]))
  | taskStarted tid => exact .inl rfl
  | _ => exact .inr (.inl (by simp [Pc.work, ↓apply_ite Pc.work]))

theorem Pc.Sends.work (n : Nat) (h : pc.Sends c k) : pc.work = none ∧ (k n).work = none := by
  cases h <;> simp [Pc.work, ↓apply_ite Pc.work]

/-! ## The workers of the system -/

theorem Pc.work_running {tid : TaskId} (h : pc.work = some (tid, .running)) :
    ∃ task context, pc = .agentRun task context ∧ task.id = tid := by
  cases pc with
  | agentRun task context => exact ⟨task, context, rfl, by simpa [Pc.work] using h⟩
  | retryOrFail t error k => cases k <;> simp [Pc.work] at h
  | _ => simp [Pc.work] at h

/-- The database after the commit of `_claim_task`. -/
theorem db_of_claim {hid : Nat} {o : Oracle} {tid : TaskId}
    (hpc : s.handlers[hid]? = some (.taskClaim tid)) (hs : s.step cfg (.run hid o) = some s') :
    s'.db = s.db.updateTask o.now tid .claimTask := by
  have hlive : s.live? hid = some (.taskClaim tid) := by rw [State.live?, hpc]
  rw [State.eq_perform hlive hs]
  rfl

/-- Where the stage of handler `hid` after an event comes from. -/
inductive WorkOrigin (s : State) (ev : Event) (hid : Nat) (tid : TaskId) : Stage → Prop
  | kept (pc : Pc) (st : Stage) (hpc : s.handlers[hid]? = some pc) (hwork : pc.work = some (tid, st)) :
      WorkOrigin s ev hid tid st
  | moved (o : Oracle) (pc : Pc) (st st' : Stage) (hev : ev = .run hid o)
      (hpc : s.handlers[hid]? = some pc) (hwork : pc.work = some (tid, st))
      (hnext : Stage.Next o tid st (some (tid, st'))) : WorkOrigin s ev hid tid st'
  | claimed (o : Oracle) (hev : ev = .run hid o) (hpc : s.handlers[hid]? = some (.taskClaim tid))
      (hn : s.db.rowcount (.updateTask tid .claimTask) = 1) : WorkOrigin s ev hid tid .claimed
  | raised (exc : Exn) (pc : Pc) (st : Stage) (hev : ev = .raise hid exc)
      (hpc : s.handlers[hid]? = some pc) (hwork : pc.work = some (tid, st)) :
      WorkOrigin s ev hid tid .failed

theorem work_origin {ev : Event} {hid : Nat} (hs : s.step cfg ev = some s')
    (hpc' : s'.handlers[hid]? = some pc') {tid : TaskId} {st : Stage}
    (hwork : pc'.work = some (tid, st)) : WorkOrigin s ev hid tid st := by
  have hspawn : ∀ {pc : Pc}, (s.handlers ++ [pc])[hid]? = some pc' → pc.work = none →
      WorkOrigin s ev hid tid st := by
    intro pc hfound hnone
    rcases Pool.getElem?_of_append hfound with hold | rfl
    · exact .kept pc' st hold hwork
    · simp [hnone] at hwork
  have hset : ∀ {hid₀ : Nat} {pc₁ : Pc}, (s.handlers.set hid₀ pc₁)[hid]? = some pc' →
      WorkOrigin s ev hid tid st ∨ hid₀ = hid ∧ pc' = pc₁ :=
    fun hfound => (Pool.getElem?_of_set hfound).imp_left fun hold => .kept pc' st hold hwork
  cases State.stepsTo hs with
  | createExecution | promoteDue | recoverStaleTasks => exact hspawn hpc' rfl
  | dequeue job | redeliver job => exact hspawn hpc' job.handler_work
  | move hid₀ o pc pc₁ hpc hlive hact =>
      rcases hset hpc' with hkept | ⟨rfl, rfl⟩
      · exact hkept
      · rcases (Pc.moves_of_act hact).work with ⟨-, hnone⟩ | ⟨tid', st', hw, hnext⟩
        · simp [hnone] at hwork
        · rw [hwork] at hnext
          cases hnext with
          | stay => exact .kept pc st hpc hw
          | start => exact .moved o pc _ _ rfl hpc hw .start
          | claimedStored => exact .moved o pc _ _ rfl hpc hw .claimedStored
          | returns output h => exact .moved o pc _ _ rfl hpc hw (.returns output h)
          | raises => exact .moved o pc _ _ rfl hpc hw .raises
          | returnedStored output => exact .moved o pc _ _ rfl hpc hw (.returnedStored output)
  | commit hid₀ o pc τ k hpc hlive hact =>
      rcases hset hpc' with hkept | ⟨rfl, rfl⟩
      · exact hkept
      · have hcommit := Pc.commits_of_act hact
        rcases hcommit.work (s.db.rowcount τ) with heq | hnone | ⟨tid', rfl, hn, hclaimed⟩
        · exact .kept pc st hpc (heq ▸ hwork)
        · simp [hnone] at hwork
        · obtain ⟨rfl, rfl⟩ : tid' = tid ∧ Stage.claimed = st := by simpa [hclaimed] using hwork
          cases hcommit
          exact .claimed o rfl hpc hn
  | send hid₀ o pc c k hpc hlive hact =>
      rcases hset hpc' with hkept | ⟨rfl, rfl⟩
      · exact hkept
      · simp [((Pc.sends_of_act hact).work _).2] at hwork
  | raise hid₀ exc pc hpc hlive =>
      rcases hset hpc' with hkept | ⟨rfl, rfl⟩
      · exact hkept
      · rcases pc.raised_work exc with hnone | ⟨tid', hfailed, hw⟩
        · simp [hnone] at hwork
        · obtain ⟨rfl, rfl⟩ : tid' = tid ∧ Stage.failed = st := by simpa [hfailed] using hwork
          rcases hw with hw | hw <;> exact .raised exc pc _ rfl hpc hw
  | crash hid₀ pc hpc hlive =>
      rcases hset hpc' with hkept | ⟨rfl, rfl⟩
      · exact hkept
      · simp [Pc.work] at hwork

end AgenticExecution
