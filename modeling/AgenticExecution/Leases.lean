import AgenticExecution.Workers

set_option autoImplicit false

/-! # Claims and leases

Who holds the claim of a RUNNING task, and who may take it away. The owner is read off the history of
a run: the handler whose event made the task RUNNING last. `_retry_or_fail` only checks that the task
is RUNNING, not whose claim it is, so both of its callers may hit a claim they know nothing of: a
worker whose own claim was released meanwhile, and the reaper, which selects first and updates
later. -/

namespace AgenticExecution

variable {cfg : Config} {s s' : State} {ev : Event} {tid : TaskId} {trace : List (State × Event)}

/-! ## Ownership along a run -/

/-- The status of the task, if it has a row. -/
def Db.status? (db : Db) (tid : TaskId) : Option TaskStatus :=
  (db.tasks.find? tid).map Task.status

/-- The event takes the task from a status in `P` to one in `Q`. -/
def changes (cfg : Config) (P Q : TaskStatus → Bool) (tid : TaskId) (p : State × Event) : Bool :=
  (p.1.db.status? tid).any P &&
    (p.1.step cfg p.2).any fun s' => (s'.db.status? tid).any Q

/-- The task becomes RUNNING. -/
def claims (cfg : Config) : TaskId → State × Event → Bool :=
  changes cfg TaskStatus.claimable fun st => st = .running

/-- The task goes from RUNNING to RETRYING or FAILED. -/
def releases (cfg : Config) : TaskId → State × Event → Bool :=
  changes cfg (fun st => st = .running) fun st => st = .retrying || st = .failed

/-- The handler that claims the task with the event. -/
def claimant (cfg : Config) (tid : TaskId) (p : State × Event) : Option Nat :=
  match p.2 with
  | .run hid _ => if claims cfg tid p then some hid else none
  | _ => none

/-- The handler with the latest claim of the task. -/
def owner (cfg : Config) (tid : TaskId) (trace : List (State × Event)) : Option Nat :=
  trace.foldl (fun w p => (claimant cfg tid p).or w) none

/-- The task was released after the latest claim of handler `hid`. -/
def releasedSince (cfg : Config) (tid : TaskId) (hid : Nat) (trace : List (State × Event)) : Bool :=
  trace.foldl
    (fun b p => if claimant cfg tid p = some hid then false else b || releases cfg tid p) false

/-- Handler `hid` claimed the task. -/
def Claimed (cfg : Config) (tid : TaskId) (hid : Nat) (trace : List (State × Event)) : Prop :=
  ∃ p ∈ trace, claimant cfg tid p = some hid

theorem owner_snoc (p : State × Event) :
    owner cfg tid (trace ++ [p]) = (claimant cfg tid p).or (owner cfg tid trace) := by
  rw [owner, List.foldl_append]
  rfl

theorem releasedSince_snoc {hid : Nat} (p : State × Event) :
    releasedSince cfg tid hid (trace ++ [p]) =
      if claimant cfg tid p = some hid then false
      else releasedSince cfg tid hid trace || releases cfg tid p := by
  rw [releasedSince, List.foldl_append]
  rfl

theorem claimed_snoc {hid : Nat} {p : State × Event} :
    Claimed cfg tid hid (trace ++ [p]) ↔
      Claimed cfg tid hid trace ∨ claimant cfg tid p = some hid := by
  constructor
  · rintro ⟨q, hq, hc⟩
    rcases List.mem_append.1 hq with hq | hq
    · exact .inl ⟨q, hq, hc⟩
    · obtain rfl := List.mem_singleton.1 hq
      exact .inr hc
  · rintro (⟨q, hq, hc⟩ | hc)
    · exact ⟨q, List.mem_append_left _ hq, hc⟩
    · exact ⟨p, List.mem_append_right _ (List.mem_singleton.2 rfl), hc⟩

theorem Db.status?_eq_some {db : Db} {st : TaskStatus} :
    db.status? tid = some st ↔ ∃ t ∈ db.tasks, t.id = tid ∧ t.status = st := by
  rw [Db.status?, Option.map_eq_some_iff]
  constructor
  · rintro ⟨t, ht, hst⟩
    obtain ⟨hmem, hid⟩ := Table.find?_eq_some_iff.1 ht
    exact ⟨t, hmem, hid, hst⟩
  · rintro ⟨t, hmem, hid, hst⟩
    exact ⟨t, Table.find?_eq_some_iff.2 ⟨hmem, hid⟩, hst⟩

theorem Db.status?_of_mem {db : Db} {t : Task} (ht : t ∈ db.tasks) : db.status? t.id = some t.status :=
  Db.status?_eq_some.2 ⟨t, ht, rfl, rfl⟩

theorem changes_iff {P Q : TaskStatus → Bool} (hs : s.step cfg ev = some s') :
    changes cfg P Q tid (s, ev) = true ↔
      (∃ t ∈ s.db.tasks, t.id = tid ∧ P t.status = true) ∧
        ∃ t ∈ s'.db.tasks, t.id = tid ∧ Q t.status = true := by
  have hrow : ∀ {db : Db} {R : TaskStatus → Bool}, (db.status? tid).any R = true ↔
      ∃ t ∈ db.tasks, t.id = tid ∧ R t.status = true := by
    intro db R
    rw [Option.any_eq_true]
    constructor
    · rintro ⟨st, hst, hR⟩
      obtain ⟨t, ht, hid, rfl⟩ := Db.status?_eq_some.1 hst
      exact ⟨t, ht, hid, hR⟩
    · rintro ⟨t, ht, rfl, hR⟩
      exact ⟨t.status, Db.status?_of_mem ht, hR⟩
  rw [changes, Bool.and_eq_true, hrow, hs]
  exact and_congr_right fun _ => hrow

/-- The claim of a task by the commit of `_claim_task`. -/
theorem claimant_of_claim {hid : Nat} {o : Oracle} (hs : s.step cfg (.run hid o) = some s')
    (hpc : s.handlers[hid]? = some (.taskClaim tid))
    (hn : s.db.rowcount (.updateTask tid .claimTask) = 1) :
    claimant cfg tid (s, .run hid o) = some hid := by
  obtain ⟨t, ht, rfl, hg⟩ := Table.rowcount_eq_one_iff.1 hn
  have hclaims : claims cfg t.id (s, .run hid o) = true := by
    refine (changes_iff hs).2 ⟨⟨t, ht, rfl, hg⟩, ?_⟩
    rw [db_of_claim hpc hs]
    exact ⟨_, Db.set_mem_updateTask ht rfl hg, TaskUpdate.set_id o.now _ t, by simp [TaskUpdate.set]⟩
  simp [claimant, hclaims]

/-- Nothing but `_claim_task` claims a task. -/
theorem taskClaim_of_claims (hs : s.step cfg ev = some s') (h : claims cfg tid (s, ev) = true) :
    ∃ hid o, ev = .run hid o ∧ s.handlers[hid]? = some (.taskClaim tid) := by
  obtain ⟨⟨u, hu, huid, hclaimable⟩, t', ht', hid', hrunning⟩ := (changes_iff hs).1 h
  have hrunning : t'.status = .running := of_decide_eq_true hrunning
  have hkept : ∀ t ∈ s.db.tasks, t.id = tid → t.status ≠ .running := by
    intro t ht hid hst
    obtain rfl := Table.eq_of_key_eq hu ht (huid.trans hid.symm)
    rw [hst] at hclaimable
    cases hclaimable
  cases row_origin hs ht' with
  | kept hmem => exact absurd hrunning (hkept t' hmem hid')
  | planned o e i sub heq => simp [heq, Db.plannedTask] at hrunning
  | set hid o pc τ k t u hev hpc hcommit hdb ht hu hg heq =>
      subst heq
      rw [u.set_id] at hid'
      cases hcommit with
      | taskClaim tid' =>
          obtain ⟨rfl, -⟩ := Prod.mk.inj (Option.some.inj hu)
          exact ⟨hid, o, hev, hid' ▸ hpc⟩
      | taskStarted | taskStored | persist | persistUpdate | retryTask | failTask | skipTask
        | markEnqueued =>
          obtain ⟨-, rfl⟩ := Prod.mk.inj (Option.some.inj hu)
          first
          | exact absurd hrunning (hkept t ht hid')
          | cases hrunning
      | _ => cases hu

/-- Only the commit of `_claim_task` makes a task RUNNING. -/
theorem running_step (hs : s.step cfg ev = some s') {t' : Task} (ht' : t' ∈ s'.db.tasks)
    (hrunning : t'.status = .running) :
    (∃ t ∈ s.db.tasks, t.id = t'.id ∧ t.status = .running) ∨
      ∃ hid, claimant cfg t'.id (s, ev) = some hid := by
  cases row_origin hs ht' with
  | kept hmem => exact .inl ⟨t', hmem, rfl, hrunning⟩
  | planned o e i sub heq => simp [heq, Db.plannedTask] at hrunning
  | set hid o pc τ k t u hev hpc hcommit hdb ht hu hg heq =>
      subst hev heq
      rw [u.set_id]
      cases hcommit with
      | taskClaim tid =>
          obtain ⟨rfl, rfl⟩ := Prod.mk.inj (Option.some.inj hu)
          have hn := Db.rowcount_updateTask ht rfl hg
          exact .inr ⟨hid, claimant_of_claim hs hpc hn⟩
      | taskStarted | markEnqueued =>
          obtain ⟨-, rfl⟩ := Prod.mk.inj (Option.some.inj hu)
          exact .inl ⟨t, ht, rfl, hrunning⟩
      | taskStored | persist | persistUpdate | retryTask | failTask | skipTask =>
          obtain ⟨-, rfl⟩ := Prod.mk.inj (Option.some.inj hu)
          simp [TaskUpdate.set] at hrunning
      | _ => cases hu

/-- A task is released by `_retry_or_fail`, in a worker or in the reaper. -/
theorem releases_at (hs : s.step cfg ev = some s') (h : releases cfg tid (s, ev) = true) :
    ∃ hid o task error k, ev = .run hid o ∧ s.handlers[hid]? = some (.retryOrFail task error k) ∧
      task.id = tid := by
  obtain ⟨⟨t, ht, rfl, hrun⟩, t', ht', hid', hst⟩ := (changes_iff hs).1 h
  have hrunning : t.status = .running := by simpa using hrun
  cases row_origin hs ht' with
  | kept hmem =>
      obtain rfl := Table.eq_of_key_eq hmem ht hid'
      simp [hrunning] at hst
  | planned o e i sub heq => exact absurd (heq ▸ hid') (Db.plannedTask_id_ne ht e i sub)
  | set hid o pc τ k t₀ u hev hpc hcommit hdb ht₀ hu hg heq =>
      subst heq
      obtain rfl := Table.eq_of_key_eq ht₀ ht ((u.set_id o.now t₀).symm.trans hid')
      cases hcommit with
      | retryTask task error k' | failTask task error k' =>
          obtain ⟨htask, -⟩ := Prod.mk.inj (Option.some.inj hu)
          exact ⟨hid, o, task, error, k', hev, hpc, htask⟩
      | taskClaim | taskStarted | markEnqueued | taskStored | persist | persistUpdate | skipTask =>
          obtain ⟨-, rfl⟩ := Prod.mk.inj (Option.some.inj hu)
          simp_all [TaskUpdate.set, TaskUpdate.guard]
      | _ => cases hu

/-! ## The history of one task -/

/-- What the history of a run says about the claims of a task. -/
structure Ownership (cfg : Config) (tid : TaskId) (trace : List (State × Event)) (s : State) :
    Prop where
  /-- The claim of a RUNNING task was not released. -/
  running : ∀ t ∈ s.db.tasks, t.id = tid → t.status = .running →
    ∃ w, owner cfg tid trace = some w ∧ releasedSince cfg tid w trace = false
  /-- While a claim is not released, nobody else claims the task. -/
  unreleased : ∀ w, Claimed cfg tid w trace → releasedSince cfg tid w trace = false →
    owner cfg tid trace = some w ∧
      ∃ t ∈ s.db.tasks, t.id = tid ∧ t.status.claimable = false
  /-- A handler that works on the task claimed it. -/
  worker : ∀ hid pc st, s.handlers[hid]? = some pc → pc.work = some (tid, st) →
    Claimed cfg tid hid trace

theorem claimant_eq_some {hid : Nat} (h : claimant cfg tid (s, ev) = some hid) :
    (∃ o, ev = .run hid o) ∧ claims cfg tid (s, ev) = true := by
  cases ev with
  | run hid' o =>
      simp only [claimant] at h
      split at h
      · next hc =>
          obtain rfl := Option.some.inj h
          exact ⟨⟨o, rfl⟩, hc⟩
      · cases h
  | _ => cases h

/-- A row nobody can claim is not claimable after a step either, unless the step releases it. -/
theorem not_claimable_step (hinv : Inv s) (hs : s.step cfg ev = some s') {t : Task}
    (ht : t ∈ s.db.tasks) (hst : t.status.claimable = false)
    (hrel : releases cfg t.id (s, ev) = false) :
    ∃ t' ∈ s'.db.tasks, t'.id = t.id ∧ t'.status.claimable = false := by
  obtain ⟨t', ht', hle⟩ := (hinv.step hs).2.task t ht
  refine ⟨t', ht', hle.id, ?_⟩
  cases hold : t.status with
  | completed | failed => rw [hle.terminal (by simp [hold, TaskStatus.isTerminal]), hst]
  | pending | retrying => simp [hold, TaskStatus.claimable] at hst
  | running =>
      have hclaimed : t'.status ≠ .pending := hle.claimed (by simp [hold])
      cases hnew : t'.status with
      | pending => exact absurd hnew hclaimed
      | running | completed | failed => rfl
      | retrying =>
          have : releases cfg t.id (s, ev) = true :=
            (changes_iff hs).2 ⟨⟨t, ht, rfl, by simp [hold]⟩, t', ht', hle.id, by simp [hnew]⟩
          simp [this] at hrel

/-- A handler that works on a task did so before, or has just claimed it. -/
theorem worker_step (hs : s.step cfg ev = some s') {hid : Nat} {pc' : Pc} {st : Stage}
    (hpc' : s'.handlers[hid]? = some pc') (hw : pc'.work = some (tid, st)) :
    (∃ pc st, s.handlers[hid]? = some pc ∧ pc.work = some (tid, st)) ∨
      claimant cfg tid (s, ev) = some hid := by
  cases work_origin hs hpc' hw with
  | kept pc st hpc hwork => exact .inl ⟨pc, st, hpc, hwork⟩
  | moved o pc st st' hev hpc hwork => exact .inl ⟨pc, st, hpc, hwork⟩
  | raised exc pc st hev hpc hwork => exact .inl ⟨pc, st, hpc, hwork⟩
  | claimed o hev hpc hn =>
      subst hev
      exact .inr (claimant_of_claim hs hpc hn)

theorem Ownership.step (hinv : Inv s) (h : Ownership cfg tid trace s) (hs : s.step cfg ev = some s') :
    Ownership cfg tid (trace ++ [(s, ev)]) s' where
  running t' ht' hid' hrunning := by
    rw [owner_snoc]
    cases hclaim : claimant cfg tid (s, ev) with
    | some w => exact ⟨w, rfl, by rw [releasedSince_snoc, if_pos hclaim]⟩
    | none =>
        rcases running_step hs ht' hrunning with ⟨t, ht, hid, hrun⟩ | ⟨hid, hclaim'⟩
        · obtain ⟨w, hw, hkept⟩ := h.running t ht (hid.trans hid') hrun
          refine ⟨w, hw, ?_⟩
          rw [releasedSince_snoc, hclaim, if_neg nofun, hkept, Bool.false_or]
          refine Bool.eq_false_iff.2 fun hrel => ?_
          obtain ⟨-, t'', ht'', hid'', hst⟩ := (changes_iff hs).1 hrel
          obtain rfl := Table.eq_of_key_eq ht'' ht' (hid''.trans hid'.symm)
          simp [hrunning] at hst
        · rw [hid', hclaim] at hclaim'
          cases hclaim'
  unreleased w hclaimed hkept := by
    rw [releasedSince_snoc] at hkept
    by_cases hnow : claimant cfg tid (s, ev) = some w
    · obtain ⟨-, t', ht', hid', hst⟩ := (changes_iff hs).1 (claimant_eq_some hnow).2
      rw [owner_snoc, hnow]
      exact ⟨rfl, t', ht', hid', by simp_all [TaskStatus.claimable]⟩
    · rw [if_neg hnow, Bool.or_eq_false_iff] at hkept
      obtain ⟨howner, t, ht, rfl, hst⟩ :=
        h.unreleased w ((claimed_snoc.1 hclaimed).resolve_right hnow) hkept.1
      refine ⟨?_, not_claimable_step hinv hs ht hst hkept.2⟩
      rw [owner_snoc]
      cases hclaim : claimant cfg t.id (s, ev) with
      | none => exact howner
      | some w' =>
          obtain ⟨⟨t', ht', hid', hst'⟩, -⟩ := (changes_iff hs).1 (claimant_eq_some hclaim).2
          obtain rfl := Table.eq_of_key_eq ht' ht hid'
          simp [hst] at hst'
  worker hid pc st hpc hw := by
    rcases worker_step hs hpc hw with ⟨pc₀, st₀, hpc₀, hw₀⟩ | hclaim
    · exact claimed_snoc.2 (.inl (h.worker hid pc₀ st₀ hpc₀ hw₀))
    · exact claimed_snoc.2 (.inr hclaim)

theorem ownership_run {E : State → Event → Prop} (h : (queueMode cfg).Run E trace s) (tid : TaskId) :
    Ownership cfg tid trace s := by
  refine Lts.Run.invariant (I := Ownership cfg tid) ?_ ?_ h
  · refine ⟨by simp [queueMode], ?_, by simp [queueMode]⟩
    rintro w ⟨p, hp, -⟩
    cases hp
  · intro trace s ev s' hrun hi _ hs
    exact hi.step (reachable_inv hrun.reachable) hs

/-! ## The reaper's selection -/

/-- Every event carries a time of one clock that never goes back, and the reaper reads it too. -/
def OneClock (s : State) : Event → Prop
  | .createExecution _ now => s.clock ≤ now
  | .run _ o => s.clock ≤ o.now ∧ o.suspects = []
  | _ => True

instance (s : State) (ev : Event) : Decidable (OneClock s ev) :=
  match ev with
  | .createExecution _ now => inferInstanceAs (Decidable (s.clock ≤ now))
  | .run _ o => inferInstanceAs (Decidable (s.clock ≤ o.now ∧ o.suspects = []))
  | .dequeue | .promoteDue | .recoverStaleTasks | .redeliver _ | .raise .. | .crash _ =>
    inferInstanceAs (Decidable True)

/-- The selected tasks the reaper still has to recover. -/
def RetryCaller.stale : RetryCaller → List Task
  | .executeTask _ => []
  | .recoverStaleTasks _ stale _ => stale

/-- The rows of the reaper's selection a handler still holds. -/
def Pc.selected : Pc → List Task
  | .retryOrFail task _ (.recoverStaleTasks _ stale _) => task :: stale
  | .retrySchedule _ _ k | .retryDeadLetter _ k => k.stale
  | _ => []

@[simp] theorem Pc.retrySchedule_selected (nextAt : Time) (k : RetryCaller) :
    (Pc.retrySchedule tid nextAt k).selected = k.stale := rfl

@[simp] theorem Pc.retryDeadLetter_selected (entry : DeadLetter) (k : RetryCaller) :
    (Pc.retryDeadLetter entry k).selected = k.stale := rfl

@[simp ↓] theorem ScheduleCaller.resume_selected (k : ScheduleCaller) : k.resume.selected = [] :=
  k.observe_resume Pc.selected rfl fun _ => rfl

@[simp ↓] theorem recoverNext_selected (stale : List Task) (affected : List ExecutionId) :
    (recoverNext stale affected).selected = stale := by
  cases stale <;> rfl

@[simp ↓] theorem RetryCaller.resume_selected (k : RetryCaller) : k.resume.selected = k.stale := by
  cases k with
  | executeTask => rfl
  | recoverStaleTasks e stale affected => exact recoverNext_selected stale _

@[simp ↓] theorem finalizeTasks_selected (x : Execution) (k : ScheduleCaller) (tasks : List Task) :
    (finalizeTasks x k tasks).selected = [] :=
  observe_finalizeTasks Pc.selected rfl (fun _ => rfl) (fun _ _ _ _ _ => rfl) (fun _ _ _ => rfl) x k
    tasks

@[simp] theorem Job.handler_selected (job : Job) : job.handler.selected = [] := by
  cases job <;> rfl

@[simp] theorem Pc.raised_selected (exc : Exn) (pc : Pc) : (pc.raised exc).selected = [] := by
  rcases pc.raised_cases exc with h | ⟨e, error, h⟩ | ⟨task, h⟩ <;> rw [h] <;> rfl

theorem RetryCaller.stale_sub_selected (task : Task) (error : String) (k : RetryCaller) :
    k.stale ⊆ (Pc.retryOrFail task error k).selected := by
  cases k with
  | executeTask => exact List.nil_subset _
  | recoverStaleTasks => exact List.subset_cons_self _ _

/-- The selection only grows by the `SELECT` of the reaper. -/
theorem Pc.Moves.selected {o : Oracle} {db : Db} {r : Redis} {pc pc' : Pc}
    (h : pc.Moves cfg o db r pc') {t : Task} (ht : t ∈ pc'.selected) :
    t ∈ pc.selected ∨ isStale cfg.settings o t = true := by
  cases h with
  | recoverSelect =>
      rw [recoverNext_selected, Table.mem_reorder, List.mem_filter] at ht
      exact .inr ht.2
  | _ => simp [Pc.selected] at ht

theorem Pc.Commits.selected {o : Oracle} {db : Db} {pc : Pc} {τ : Txn} {k : Nat → Pc} (n : Nat)
    (h : pc.Commits cfg o db τ k) : (k n).selected ⊆ pc.selected := by
  cases h with
  | retryTask task error k' | failTask task error k' =>
      have := k'.stale_sub_selected task error
      by_cases hn : n = 0 <;> simpa [hn] using this
  | _ => simp [Pc.selected, ↓apply_ite Pc.selected]

theorem Pc.Sends.selected {pc : Pc} {c : Command} {k : Nat → Pc} (n : Nat) (h : pc.Sends c k) :
    (k n).selected ⊆ pc.selected := by
  cases h <;> simp [Pc.selected, ↓apply_ite Pc.selected]

/-- The lease of every selected row had run out. -/
def Expired (cfg : Config) (s : State) : Prop :=
  ∀ pc ∈ s.handlers, ∀ t ∈ pc.selected, t.updatedAt < s.clock - cfg.settings.taskLeaseSeconds

theorem Expired.step (h : Expired cfg s) (hE : OneClock s ev) (hs : s.step cfg ev = some s') :
    Expired cfg s' := by
  have hold : ∀ {now : Time}, s.clock ≤ now → ∀ pc ∈ s.handlers, ∀ t ∈ pc.selected,
      t.updatedAt < now - cfg.settings.taskLeaseSeconds := by
    intro now hnow pc hpc t ht
    exact lt_of_lt_of_le (h pc hpc t ht) (by linarith)
  have hspawn : ∀ {now : Time} {pc : Pc}, s.clock ≤ now → pc.selected = [] →
      ∀ pc' ∈ s.handlers ++ [pc], ∀ t ∈ pc'.selected,
        t.updatedAt < now - cfg.settings.taskLeaseSeconds := by
    intro now pc hnow hnone pc' hmem
    rcases List.mem_append.1 hmem with hmem | hmem
    · exact hold hnow pc' hmem
    · obtain rfl := List.mem_singleton.1 hmem
      simp [hnone]
  cases State.stepsTo hs with
  | createExecution userRequest now => exact hspawn hE rfl
  | promoteDue | recoverStaleTasks => exact hspawn le_rfl rfl
  | dequeue job | redeliver job => exact hspawn le_rfl job.handler_selected
  | move hid o pc pc' hpc hlive hact =>
      refine Pool.forall_set (fun t ht => ?_) (hold hE.1)
      rcases (Pc.moves_of_act hact).selected ht with hsel | hstale
      · exact hold hE.1 pc (List.mem_of_getElem? hpc) t hsel
      · simpa [isStale, hE.2] using (Bool.and_eq_true_iff.1 hstale).2
  | commit hid o pc τ k hpc hlive hact =>
      refine Pool.forall_set (fun t ht => ?_) (hold hE.1)
      exact hold hE.1 pc (List.mem_of_getElem? hpc) t ((Pc.commits_of_act hact).selected _ ht)
  | send hid o pc c k hpc hlive hact =>
      refine Pool.forall_set (fun t ht => ?_) (hold hE.1)
      exact hold hE.1 pc (List.mem_of_getElem? hpc) t ((Pc.sends_of_act hact).selected _ ht)
  | raise hid exc pc hpc hlive =>
      exact Pool.forall_set (by simp) (hold le_rfl)
  | crash hid pc hpc hlive => exact Pool.forall_set (by simp [Pc.selected]) (hold le_rfl)

theorem reachable_expired {E : State → Event → Prop} (hE : ∀ s ev, E s ev → OneClock s ev)
    (h : (queueMode cfg).Reachable E s) : Expired cfg s := by
  refine h.invariant (by simp [queueMode, Expired]) ?_
  intro s ev s' _ hi hadm hs
  exact hi.step (hE s ev hadm) hs

/-! ## Who may release a claim -/

/-- The release is the report of the run behind the current claim, or the lease of that claim has run
    out. -/
inductive Justified (cfg : Config) (tid : TaskId) (trace : List (State × Event)) (s : State) :
    Event → Prop
  | worker (hid : Nat) (o : Oracle) (task : Task) (error : String) (e : ExecutionId)
      (hpc : s.handlers[hid]? = some (.retryOrFail task error (.executeTask e)))
      (htask : task.id = tid) (howner : owner cfg tid trace = some hid) :
      Justified cfg tid trace s (.run hid o)
  | reaper (hid : Nat) (o : Oracle) (task : Task) (error : String) (e : ExecutionId)
      (stale : List Task) (affected : List ExecutionId)
      (hpc : s.handlers[hid]? = some (.retryOrFail task error (.recoverStaleTasks e stale affected)))
      (htask : task.id = tid)
      (hexpired : ∀ t ∈ s.db.tasks, t.id = tid →
        t.updatedAt < o.now - cfg.settings.taskLeaseSeconds) :
      Justified cfg tid trace s (.run hid o)

/-- The update of `_retry_or_fail` is not too late: the worker's own claim was not released before,
    and the reaper meets the row as it selected it. -/
def timely (cfg : Config) (trace : List (State × Event)) (s : State) : Event → Bool
  | .run hid _ =>
    match s.live? hid with
    | some (.retryOrFail task _ (.executeTask _)) => !releasedSince cfg task.id hid trace
    | some (.retryOrFail task _ (.recoverStaleTasks ..)) =>
      s.db.tasks.rows.all fun t =>
        t.id ≠ task.id || t.status ≠ .running || t.updatedAt = task.updatedAt
    | _ => true
  | _ => true

theorem timely_worker {hid : Nat} {o : Oracle} {task : Task} {error : String} {e : ExecutionId}
    (hpc : s.handlers[hid]? = some (.retryOrFail task error (.executeTask e))) :
    timely cfg trace s (.run hid o) = true ↔ releasedSince cfg task.id hid trace = false := by
  simp [timely, State.live?, hpc]

theorem timely_reaper {hid : Nat} {o : Oracle} {task : Task} {error : String} {e : ExecutionId}
    {stale : List Task} {affected : List ExecutionId}
    (hpc : s.handlers[hid]? = some (.retryOrFail task error (.recoverStaleTasks e stale affected)))
    (h : timely cfg trace s (.run hid o) = true) {t : Task} (ht : t ∈ s.db.tasks)
    (hid' : t.id = task.id) (hrunning : t.status = .running) : t.updatedAt = task.updatedAt := by
  simp only [timely, State.live?, hpc, List.all_eq_true] at h
  simpa [hid', hrunning] using h t ht

/-- A worker at its `_retry_or_fail` still owns the RUNNING task if and only if its claim was not
    released since. -/
theorem Ownership.worker_owns_iff (h : Ownership cfg tid trace s) {hid : Nat} {task : Task}
    {error : String} {e : ExecutionId}
    (hpc : s.handlers[hid]? = some (.retryOrFail task error (.executeTask e))) (htask : task.id = tid)
    {t : Task} (ht : t ∈ s.db.tasks) (hid' : t.id = tid) (hrunning : t.status = .running) :
    owner cfg tid trace = some hid ↔ releasedSince cfg tid hid trace = false := by
  have hclaimed : Claimed cfg tid hid trace := h.worker hid _ .failed hpc (by simp [Pc.work, htask])
  constructor
  · intro howner
    obtain ⟨w, hw, hkept⟩ := h.running t ht hid' hrunning
    rw [howner, Option.some.injEq] at hw
    rwa [hw]
  · intro hkept
    exact (h.unreleased hid hclaimed hkept).1

/-- A timely release is justified. -/
theorem Ownership.justified (h : Ownership cfg tid trace s) (hexpired : Expired cfg s)
    (hE : OneClock s ev) (hs : s.step cfg ev = some s') (htimely : timely cfg trace s ev = true)
    (hrel : releases cfg tid (s, ev) = true) : Justified cfg tid trace s ev := by
  obtain ⟨hid, o, task, error, k, rfl, hpc, htask⟩ := releases_at hs hrel
  obtain ⟨⟨t, ht, hid', hrun⟩, -⟩ := (changes_iff hs).1 hrel
  have hrunning : t.status = .running := by simpa using hrun
  cases k with
  | executeTask e =>
      exact .worker hid o task error e hpc htask
        ((h.worker_owns_iff hpc htask ht hid' hrunning).2 (htask ▸ (timely_worker hpc).1 htimely))
  | recoverStaleTasks e stale affected =>
      refine .reaper hid o task error e stale affected hpc htask fun t' ht' hid'' => ?_
      obtain rfl := Table.eq_of_key_eq ht' ht (hid''.trans hid'.symm)
      have hselected : task.updatedAt < s.clock - cfg.settings.taskLeaseSeconds :=
        hexpired _ (List.mem_of_getElem? hpc) task (by simp [Pc.selected])
      rw [timely_reaper hpc htimely ht (hid'.trans htask.symm) hrunning]
      exact lt_of_lt_of_le hselected (by linarith [hE.1])

/-- While its lease is live, only the owner gives up the claim. -/
theorem Justified.by_owner {hid : Nat} {o : Oracle} (h : Justified cfg tid trace s (.run hid o))
    {t : Task} (ht : t ∈ s.db.tasks) (hid' : t.id = tid)
    (hlive : o.now - cfg.settings.taskLeaseSeconds ≤ t.updatedAt) :
    owner cfg tid trace = some hid := by
  cases h with
  | worker _ _ task error e hpc htask howner => exact howner
  | reaper _ _ task error e stale affected hpc htask hexpired =>
      exact absurd (hexpired t ht hid') (not_lt.2 hlive)

/-- In every run in which all updates of `_retry_or_fail` are timely, a RUNNING task only becomes
    RETRYING or FAILED by the report of its current claim's own run, or by the reaper after the lease
    of that claim ran out; so nobody but the owner of a live lease releases it. For a worker the
    condition is exact. -/
theorem release_justified (h : (queueMode cfg).Run OneClock trace s) :
    ((∀ pre u ev post, trace = pre ++ (u, ev) :: post → timely cfg pre u ev = true) →
      ∀ pre u ev post tid, trace = pre ++ (u, ev) :: post → releases cfg tid (u, ev) = true →
        Justified cfg tid pre u ev ∧
          ∀ hid o, ev = .run hid o → ∀ t ∈ u.db.tasks, t.id = tid →
            o.now - cfg.settings.taskLeaseSeconds ≤ t.updatedAt → owner cfg tid pre = some hid) ∧
    ∀ pre u hid o post task error e, trace = pre ++ (u, .run hid o) :: post →
      u.handlers[hid]? = some (.retryOrFail task error (.executeTask e)) →
      releases cfg task.id (u, .run hid o) = true →
        (owner cfg task.id pre = some hid ↔ timely cfg pre u (.run hid o) = true) := by
  constructor
  · intro htimely pre u ev post tid htrace hrel
    obtain ⟨hrun, hE, u', hs⟩ := h.split htrace
    have hjustified := (ownership_run hrun tid).justified
      (reachable_expired (fun _ _ hE => hE) hrun.reachable) hE hs
      (htimely pre u ev post htrace) hrel
    refine ⟨hjustified, ?_⟩
    rintro hid o rfl t ht hid' hlive
    exact hjustified.by_owner ht hid' hlive
  · intro pre u hid o post task error e htrace hpc hrel
    obtain ⟨hrun, hE, u', hs⟩ := h.split htrace
    have hs' : u.step cfg (.run hid o) = some u' := hs
    obtain ⟨⟨t, ht, hid', hst⟩, -⟩ := (changes_iff hs').1 hrel
    rw [timely_worker hpc]
    exact (ownership_run hrun task.id).worker_owns_iff hpc rfl ht hid' (by simpa using hst)

/-- Every update of `_retry_or_fail` in a history was timely. -/
def timelyHistory (cfg : Config) (l : List (State × Event)) : Bool :=
  (List.range l.length).all fun i => l[i]?.all fun p => timely cfg (l.take i) p.1 p.2

theorem timely_of_history (h : timelyHistory cfg trace = true) :
    ∀ pre u ev post, trace = pre ++ (u, ev) :: post → timely cfg pre u ev = true :=
  Lts.everyStep_split h

/-- A schedule after which the next event releases the task, with a check of the run up to there. -/
theorem exists_release (cfg : Config) (tid : TaskId) (evs : List Event) (ev : Event)
    (check : List (State × Event) → State → Bool)
    (h : ((queueMode cfg).play (fun s ev => decide (OneClock s ev)) [] (queueMode cfg).init evs).any
      (fun out => decide (OneClock out.2 ev) && releases cfg tid (out.2, ev) &&
        check out.1 out.2) = true) :
    ∃ pre u s, (queueMode cfg).Run OneClock (pre ++ [(u, ev)]) s ∧
      releases cfg tid (u, ev) = true ∧ check pre u = true := by
  obtain ⟨pre, u, hrun, hcheck⟩ := (queueMode cfg).exists_run (E := OneClock) _
    (fun pre u => decide (OneClock u ev) && releases cfg tid (u, ev) && check pre u) evs
    (fun _ _ hE => of_decide_eq_true hE) h
  obtain ⟨⟨hE, hrel⟩, hcheck⟩ :
      (OneClock u ev ∧ releases cfg tid (u, ev) = true) ∧ check pre u = true := by
    simpa only [Bool.and_eq_true, decide_eq_true_eq] using hcheck
  obtain ⟨s, hs, -⟩ := (Option.any_eq_true _ _).1 (Bool.and_eq_true_iff.1 hrel).2
  exact ⟨pre, u, s, hrun.snoc hE hs, hrel, hcheck⟩

/-- One retry by the worker's own report, and a second claim the reaper selects after its lease. -/
def timelyReleases : List Event :=
  .createExecution "q" 0 :: runs 0 1 { now := 0 } ++ .dequeue :: runs 1 16 { now := 0 } ++
    .dequeue :: runs 2 12 (raising 0) ++ .promoteDue :: runs 3 4 { now := 1000 } ++
    .dequeue :: runs 4 8 { now := 1000 } ++ .recoverStaleTasks :: runs 5 1 { now := 1100 }

theorem release_justified_reaper :
    ∃ pre u s, (queueMode (fallbackConfig (singleTask 2))).Run OneClock
        (pre ++ [(u, .run 5 { now := 1100 })]) s ∧
      releases (fallbackConfig (singleTask 2)) 1 (u, .run 5 { now := 1100 }) = true ∧
      Justified (fallbackConfig (singleTask 2)) 1 pre u (.run 5 { now := 1100 }) := by
  obtain ⟨pre, u, s, hrun, hrel, hcheck⟩ := exists_release (fallbackConfig (singleTask 2)) 1
    timelyReleases (.run 5 { now := 1100 })
    (fun pre u => timelyHistory (fallbackConfig (singleTask 2))
      (pre ++ [(u, .run 5 { now := 1100 })])) (by decide +kernel)
  exact ⟨pre, u, s, hrun, hrel,
    ((release_justified hrun).1 (timely_of_history hcheck) pre u _ [] 1 rfl hrel).1⟩

/-- The reaper selects the task of handler 2, which then reports its failure; by the time of the
    reaper's update handler 5 has claimed the task. -/
def lateReaper : List Event :=
  .createExecution "q" 0 :: runs 0 1 { now := 0 } ++ .dequeue :: runs 1 16 { now := 0 } ++
    .dequeue :: runs 2 8 { now := 0 } ++ .recoverStaleTasks :: runs 3 1 { now := 100 } ++
    runs 2 4 (raising 100) ++ .promoteDue :: runs 4 4 { now := 1000 } ++
    .dequeue :: runs 5 8 { now := 1000 }

/-- After that update handler 7 claims the task, and handler 5 fails. -/
def lateWorker : List Event :=
  lateReaper ++ runs 3 2 { now := 1000 } ++ .promoteDue :: runs 6 4 { now := 2000 } ++
    .dequeue :: runs 7 8 { now := 2000 } ++ runs 5 2 (raising 2000)

/-- A live claim is released by somebody who does not own it. -/
def preempts (cfg : Config) (tid : TaskId) (hid : Nat) (o : Oracle) (pre : List (State × Event))
    (u : State) : Bool :=
  owner cfg tid pre ≠ some hid && u.db.tasks.rows.any fun t =>
    t.id = tid && decide (o.now - cfg.settings.taskLeaseSeconds ≤ t.updatedAt)

theorem not_justified_of_preempts {hid : Nat} {o : Oracle}
    (h : preempts cfg tid hid o trace s = true) : ¬ Justified cfg tid trace s (.run hid o) := by
  rw [preempts, Bool.and_eq_true, List.any_eq_true] at h
  obtain ⟨howner, t, ht, hlive⟩ := h
  intro hjustified
  rw [Bool.and_eq_true, decide_eq_true_eq, decide_eq_true_eq] at hlive
  exact of_decide_eq_true howner (hjustified.by_owner ht hlive.1 hlive.2)

/-- Both the reaper and the late report of an earlier claim can preempt a live lease. -/
theorem live_lease_preempted :
    (∃ pre u s, (queueMode (fallbackConfig (singleTask 2))).Run OneClock
        (pre ++ [(u, .run 3 { now := 1000 })]) s ∧
      releases (fallbackConfig (singleTask 2)) 1 (u, .run 3 { now := 1000 }) = true ∧
      ¬ Justified (fallbackConfig (singleTask 2)) 1 pre u (.run 3 { now := 1000 })) ∧
    ∃ pre u s, (queueMode (fallbackConfig (singleTask 2))).Run OneClock
        (pre ++ [(u, .run 5 (raising 2000))]) s ∧
      releases (fallbackConfig (singleTask 2)) 1 (u, .run 5 (raising 2000)) = true ∧
      ¬ Justified (fallbackConfig (singleTask 2)) 1 pre u (.run 5 (raising 2000)) := by
  constructor
  · obtain ⟨pre, u, s, hrun, hrel, hcheck⟩ := exists_release (fallbackConfig (singleTask 2)) 1
      lateReaper (.run 3 { now := 1000 })
      (preempts (fallbackConfig (singleTask 2)) 1 3 { now := 1000 }) (by decide +kernel)
    exact ⟨pre, u, s, hrun, hrel, not_justified_of_preempts hcheck⟩
  · obtain ⟨pre, u, s, hrun, hrel, hcheck⟩ := exists_release (fallbackConfig (singleTask 2)) 1
      lateWorker (.run 5 (raising 2000))
      (preempts (fallbackConfig (singleTask 2)) 1 5 (raising 2000)) (by decide +kernel)
    exact ⟨pre, u, s, hrun, hrel, not_justified_of_preempts hcheck⟩

end AgenticExecution
