import AgenticExecution.Accounts
import AgenticExecution.Completion

set_option autoImplicit false

/-! # What a finished execution records

As long as nothing raises, an execution fails for one of two reasons: its planning was given up before
it had tasks, or a finalizer saw all its tasks finished and one of them not COMPLETED. The second kind
records the tokens of its tasks, as a COMPLETED execution does, and neither has a final result. -/

namespace AgenticExecution

variable {cfg : Config} {agent : Agents} {e : ExecutionId} {s s' : State} {ev : Event} {db db' : Db}
  {trace : List (State × Event)}

/-! ## Planning that is given up -/

/-- The execution has no tasks, and nobody plans it any more. -/
structure GivenUp (s : State) (e : ExecutionId) : Prop where
  submitted : s.db.Submitted e
  unplanned : ¬ s.db.Planned e
  free : s.planners e = 0
  claimed : ∀ x ∈ s.db.executions, x.id = e → x.status ≠ .pending

/-- Nobody starts to plan an execution that is not PENDING. -/
theorem planners_step (hclaimed : ∀ x ∈ s.db.executions, x.id = e → x.status ≠ .pending)
    (hs : s.step cfg ev = some s') : s'.planners e ≤ s.planners e := by
  have hspawn : ∀ {pc : Pc}, s'.handlers = s.handlers ++ [pc] → pc.plans e = 0 →
      s'.planners e ≤ s.planners e := by
    intro pc hh hzero
    rw [State.planners, State.weight_spawn _ hh, hzero]
    exact Nat.le_refl _
  have hset : ∀ {hid : Nat} {pc pc' : Pc}, s.handlers[hid]? = some pc →
      s'.handlers = s.handlers.set hid pc' → pc'.plans e ≤ pc.plans e →
        s'.planners e ≤ s.planners e := by
    intro hid pc pc' hpc hh hle
    have := State.weight_set (Pc.plans e) hpc hh
    simp only [State.planners]
    omega
  cases State.stepsTo hs with
  | createExecution | promoteDue | recoverStaleTasks => exact hspawn rfl rfl
  | dequeue job | redeliver job => exact hspawn rfl (Job.handler_plans e job)
  | move hid o pc pc' hpc hlive hact => exact hset hpc rfl ((Pc.moves_of_act hact).plans_le e)
  | commit hid o pc τ k hpc hlive hact =>
      rcases (Pc.commits_of_act hact).plans_le e (s.db.rowcount τ) with hle | ⟨rfl, hn⟩
      · exact hset hpc rfl hle
      · obtain ⟨x, hx, hid', hg⟩ := Table.rowcount_eq_one_iff.1 hn
        exact absurd (by simpa [ExecutionUpdate.guard] using hg) (hclaimed x hx hid')
  | send hid o pc c k hpc hlive hact =>
      exact hset hpc rfl (by rw [(Pc.sends_of_act hact).plans_eq e]; exact Nat.zero_le _)
  | raise hid exc pc hpc hlive =>
      exact hset hpc rfl (by rw [Pc.raised_plans]; exact Nat.zero_le _)
  | crash hid pc hpc hlive => exact hset hpc rfl (Nat.zero_le _)

/-- An execution that was submitted and claimed is never PENDING again. -/
theorem not_pending_step (hinv : Inv s) (hsub : s.db.Submitted e)
    (hclaimed : ∀ x ∈ s.db.executions, x.id = e → x.status ≠ .pending)
    (hs : s.step cfg ev = some s') :
    ∀ x ∈ s'.db.executions, x.id = e → x.status ≠ .pending := by
  intro x' hx' hid'
  obtain ⟨x, hx, hid⟩ := hsub
  obtain ⟨x₁, hx₁, hid₁, -, hst⟩ := (hinv.step hs).2.execution x hx
  obtain rfl := Table.eq_of_key_eq hx₁ hx' (hid₁.trans (hid.trans hid'.symm))
  exact hst (hclaimed x hx hid)

theorem GivenUp.step (hinv : Inv s) (h : GivenUp s e) (hs : s.step cfg ev = some s') :
    GivenUp s' e where
  submitted := h.submitted.mono (hinv.step hs).2
  unplanned := by
    cases State.stepsTo hs with
    | commit hid o pc τ k hpc hlive hact =>
        intro hp
        rcases Db.planned_of_commit hp with hold | ⟨plan, rfl⟩
        · exact h.unplanned hold
        · cases Pc.commits_of_act hact
          have := Pool.le_sum (Pc.plans e) hpc
          simp only [Pc.plans, if_true] at this
          have hfree := h.free
          simp only [State.planners, State.weight] at hfree
          omega
    | createExecution | dequeue | promoteDue | recoverStaleTasks | move | send | redeliver | raise
      | crash => exact h.unplanned
  free := Nat.le_zero.1 (h.free ▸ planners_step h.claimed hs)
  claimed := not_pending_step hinv h.submitted h.claimed hs

/-- The execution whose failure the error path of `plan_execution` is about to record. -/
def Pc.givesUp? : Pc → Option ExecutionId
  | .planFail e _ => some e
  | _ => none

@[simp ↓] theorem ScheduleCaller.resume_givesUp (k : ScheduleCaller) : k.resume.givesUp? = none :=
  k.observe_resume Pc.givesUp? rfl fun _ => rfl

@[simp ↓] theorem recoverNext_givesUp (stale : List Task) (affected : List ExecutionId) :
    (recoverNext stale affected).givesUp? = none :=
  observe_recoverNext Pc.givesUp? (fun _ => rfl) (fun _ _ _ _ _ => rfl) stale affected

@[simp ↓] theorem RetryCaller.resume_givesUp (k : RetryCaller) : k.resume.givesUp? = none :=
  k.observe_resume Pc.givesUp? (fun _ => rfl) (fun _ => rfl) fun _ _ _ _ _ => rfl

@[simp ↓] theorem finalizeTasks_givesUp (x : Execution) (k : ScheduleCaller) (tasks : List Task) :
    (finalizeTasks x k tasks).givesUp? = none :=
  observe_finalizeTasks Pc.givesUp? rfl (fun _ => rfl) (fun _ _ _ _ _ => rfl) (fun _ _ _ => rfl) x k
    tasks

@[simp] theorem Job.handler_givesUp (job : Job) : job.handler.givesUp? = none := by
  cases job <;> rfl

/-- Without exceptions, planning is only given up when the planning model raised. -/
theorem Pc.Moves.givesUp {o : Oracle} {r : Redis} {pc pc' : Pc} (h : pc.Moves cfg o db r pc')
    (hpc' : pc'.givesUp? = some e) : ∃ userRequest, pc = .planLlm e userRequest := by
  cases h with
  | planLlmRaised e' userRequest =>
      obtain rfl := Option.some.inj hpc'
      exact ⟨userRequest, rfl⟩
  | _ => simp [Pc.givesUp?] at hpc'

theorem Pc.Commits.givesUp {o : Oracle} {pc : Pc} {τ : Txn} {k : Nat → Pc} (n : Nat)
    (h : pc.Commits cfg o db τ k) : (k n).givesUp? = none := by
  cases h <;> simp [Pc.givesUp?, ↓apply_ite Pc.givesUp?]

theorem Pc.Sends.givesUp {pc : Pc} {c : Command} {k : Nat → Pc} (n : Nat) (h : pc.Sends c k) :
    (k n).givesUp? = none := by
  cases h <;> simp [Pc.givesUp?, ↓apply_ite Pc.givesUp?]

/-- The only planner of an execution gives up. -/
theorem Inv.givenUp (hinv : Inv s) {hid : Nat} {o : Oracle} {userRequest : String} {pc' : Pc}
    (hpc : s.handlers[hid]? = some (.planLlm e userRequest)) (hs : s.step cfg (.run hid o) = some s')
    (hact : (Pc.planLlm e userRequest).act cfg o s.db s.redis = .goto pc')
    (hpc' : pc'.givesUp? = some e) : GivenUp s' e := by
  have hlive : s.live? hid = some (.planLlm e userRequest) := by rw [State.live?, hpc]
  have hs' := State.eq_perform hlive hs
  rw [hact] at hs'
  have hhandlers : s'.handlers = s.handlers.set hid pc' := by rw [hs']; rfl
  have hdb : s'.db = s.db := by rw [hs']; rfl
  have hone := (hinv.slot e).one
  have hweight := State.weight_set (Pc.plans e) hpc hhandlers
  have hpos := Pool.le_sum (Pc.plans e) hpc
  have hplans : pc'.plans e = 0 := by
    cases pc' with
    | planFail => rfl
    | _ => cases hpc'
  rw [hplans] at hweight
  simp only [Pc.plans, if_true] at hweight hpos
  simp only [State.planners] at hone
  constructor
  case submitted =>
    obtain ⟨x, hx, hid', -⟩ := hinv.knows _ (List.mem_of_getElem? hpc)
    exact ⟨x, hdb ▸ hx, hid'⟩
  case unplanned =>
    rw [hdb]
    exact (hinv.slot e).free hpos
  case free =>
    rw [State.planners]
    omega
  case claimed =>
    rw [hdb]
    intro x hx hid' hst
    have hzero := ((hinv.slot e).pending x hx hid' hst).1
    simp only [State.planners, State.weight] at hzero
    omega

/-- Whoever is about to fail an execution has given up its planning. -/
theorem givesUp_step (hinv : Inv s) (hE : Uninterrupted s ev)
    (h : ∀ pc ∈ s.handlers, ∀ e, pc.givesUp? = some e → GivenUp s e)
    (hs : s.step cfg ev = some s') : ∀ pc ∈ s'.handlers, ∀ e, pc.givesUp? = some e → GivenUp s' e := by
  refine State.forall_handlers (P := fun pc => ∀ e, pc.givesUp? = some e → GivenUp s e) hs h ?_ ?_ ?_
    ?_ ?_ ?_ nofun
  · intro pc _ hgiven e he
    exact (hgiven e he).step hinv hs
  · intro pc hstart e he
    cases hstart with
    | dequeue job | redeliver job => simp at he
    | createExecution | promoteDue | recoverStaleTasks => cases he
  · rintro hid o pc pc' rfl hpc hact - - e he
    obtain ⟨userRequest, rfl⟩ := (Pc.moves_of_act hact).givesUp he
    exact hinv.givenUp hpc hs hact he
  · intro hid o pc τ k _ _ hcommit _ _ e he
    simp [hcommit.givesUp] at he
  · intro hid o pc c k _ _ hsend _ _ e he
    simp [hsend.givesUp] at he
  · rintro hid exc pc rfl
    exact hE.elim

/-! ## FAILED executions -/

/-- The execution records the tokens of a complete read of its tasks, all finished and one of them not
    COMPLETED. -/
structure Db.Unsuccessful (db : Db) (x : Execution) (tasks : List Task) : Prop where
  planned : db.Planned x.id
  loaded : db.Loaded x.id tasks
  finished : ∀ t ∈ tasks, t.status.isTerminal = true
  unsuccessful : ∃ t ∈ tasks, t.status ≠ .completed
  tokens : ∀ t ∈ tasks, t.status ≠ .completed → t.totalTokens = none
  recorded : x.totalTokens = some (sumTokens tasks)

theorem Db.Unsuccessful.mono {x : Execution} {tasks : List Task} (hle : db.Le db')
    (h : db.Unsuccessful x tasks) : db'.Unsuccessful x tasks :=
  ⟨h.planned.mono hle, h.loaded.mono hle h.planned, h.finished, h.unsuccessful, h.tokens, h.recorded⟩

/-- What the row of an execution records besides the aggregate of a COMPLETED one. -/
structure Recorded (s : State) (x : Execution) : Prop where
  finalResult : x.status ≠ .completed → x.finalResult = none
  failed : x.status = .failed → GivenUp s x.id ∨ ∃ tasks, s.db.Unsuccessful x tasks

theorem Recorded.keep (hinv : Inv s) (hs : s.step cfg ev = some s') {x : Execution}
    (h : Recorded s x) : Recorded s' x where
  finalResult := h.finalResult
  failed hst := (h.failed hst).imp (fun hg => hg.step hinv hs)
    fun ⟨tasks, hu⟩ => ⟨tasks, hu.mono (hinv.step hs).2⟩

/-- The row of an execution that a handler has just updated. -/
theorem Recorded.set (hinv : Inv s) (haccounts : Accounts cfg agent e s) (hsealed : s.db.AllSealed)
    (hgives : ∀ pc ∈ s.handlers, ∀ e, pc.givesUp? = some e → GivenUp s e) {hid : Nat} {o : Oracle}
    {pc : Pc} {k : Nat → Pc} {x : Execution} {u : ExecutionUpdate}
    (hs : s.step cfg (.run hid o) = some s') (hpc : s.handlers[hid]? = some pc)
    (hcommit : pc.Commits cfg o s.db (.updateExecution x.id u) k) (hx : x ∈ s.db.executions)
    (he : x.id = e) (hg : u.guard x = true) (h : Recorded s x) : Recorded s' (u.set o.now x) := by
  have hle := (hinv.step hs).2
  have hmem := List.mem_of_getElem? hpc
  generalize hτ : Txn.updateExecution x.id u = τ at hcommit
  cases hcommit with
  | planGuard | planRunning =>
      obtain ⟨-, rfl⟩ := Txn.updateExecution.inj hτ
      have hst : x.status ≠ .completed := by
        have hst := of_decide_eq_true hg
        simp [hst]
      exact ⟨fun _ => h.finalResult hst, nofun⟩
  | planStarted =>
      obtain ⟨-, rfl⟩ := Txn.updateExecution.inj hτ
      have hkept := h.keep hinv hs
      refine ⟨hkept.finalResult, fun hst => (hkept.failed hst).imp_right fun ⟨tasks, hu⟩ => ?_⟩
      exact ⟨tasks, hu.planned, hu.loaded, hu.finished, hu.unsuccessful, hu.tokens, hu.recorded⟩
  | planFail e' error =>
      obtain ⟨rfl, rfl⟩ := Txn.updateExecution.inj hτ
      have hgiven : GivenUp s x.id := hgives _ hmem x.id rfl
      refine ⟨fun _ => h.finalResult fun hst => ?_, fun _ => .inl (hgiven.step hinv hs)⟩
      exact hgiven.unplanned (hsealed x hx hst).planned
  | finalizeComplete =>
      obtain ⟨-, rfl⟩ := Txn.updateExecution.inj hτ
      exact ⟨fun hne => absurd rfl hne, nofun⟩
  | finalizeFail x₀ k' tasks =>
      obtain ⟨hid', rfl⟩ := Txn.updateExecution.inj hτ
      obtain ⟨hplanned, hl, hfin, -⟩ := hinv.knows _ hmem
      obtain ⟨hsome, htokens⟩ := haccounts.tells _ hmem (hid'.symm.trans he)
      have hst : x.status ≠ .completed := by
        have hst := of_decide_eq_true hg
        simp [hst]
      refine ⟨fun _ => h.finalResult hst, fun _ => .inr ⟨tasks, ?_, ?_, hfin, hsome, htokens, rfl⟩⟩
      · show s'.db.Planned x.id
        exact hid' ▸ hplanned.mono hle
      · show s'.db.Loaded x.id tasks
        exact hid' ▸ hl.mono hle hplanned
  | _ => cases hτ

/-- What holds of the executions along an orderly run. -/
structure Recording (e : ExecutionId) (s : State) : Prop where
  givesUp : ∀ pc ∈ s.handlers, ∀ e, pc.givesUp? = some e → GivenUp s e
  execution : ∀ x ∈ s.db.executions, x.id = e → Recorded s x

theorem Recording.step (hinv : Inv s) (haccounts : Accounts cfg agent e s) (hsealed : s.db.AllSealed)
    (h : Recording e s) (hE : Uninterrupted s ev) (hs : s.step cfg ev = some s') : Recording e s' where
  givesUp := givesUp_step hinv hE h.givesUp hs
  execution x' hx' he := by
    have hold : x' ∈ s.db.executions → Recorded s' x' :=
      fun hx => (h.execution x' hx he).keep hinv hs
    cases State.stepsTo hs with
    | createExecution userRequest now =>
        rcases State.mem_createExecution.1 hx' with hx | rfl
        · exact hold hx
        · exact ⟨fun _ => rfl, nofun⟩
    | commit hid o pc τ k hpc hlive hact =>
        rcases Db.mem_commit_executions hx' with ⟨hx, -⟩ | ⟨x, hx, u, rfl, hg, rfl⟩
        · exact hold hx
        · rw [u.set_id] at he
          exact Recorded.set hinv haccounts hsealed h.givesUp hs hpc (Pc.commits_of_act hact) hx he hg
            (h.execution x hx he)
    | dequeue | promoteDue | recoverStaleTasks | move | send | redeliver | raise | crash =>
        exact hold hx'

theorem recording_run (h : (queueMode cfg).Run (Orderly cfg agent e) trace s) : Recording e s := by
  refine Lts.Run.invariant (I := fun _ => Recording e) ?_ ?_ h
  · exact ⟨by simp [queueMode], by simp [queueMode]⟩
  · intro trace s ev s' hrun hi hE hs
    exact hi.step (reachable_inv hrun.reachable) (accounts_run hrun) (reachable_allSealed hrun.reachable)
      hE.uninterrupted hs

end AgenticExecution
