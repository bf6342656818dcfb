import AgenticExecution.Effects
import AgenticExecution.HandlerSteps
import AgenticExecution.Library.Pool

set_option autoImplicit false

/-! # The safety invariant

`Inv` holds in every reachable state of queue mode, whatever the interleaving and whatever jobs are
delivered again, calls raise, or handlers stop: the tables are well formed, Redis only names rows
that are there, every handler knows what its program point says, and at most one planner is between
its claim of an execution and the insert of its tasks. It comes with `step_le`: every step moves the
database forward. -/

namespace AgenticExecution

variable {cfg : Config} {s s' : State} {ev : Event}

/-! ## Steps by kind -/

/-- What an event does, with the partiality of `State.step` resolved. -/
inductive StepsTo (cfg : Config) (s : State) : Event → State → Prop
  | createExecution (userRequest : String) (now : Time) :
      StepsTo cfg s (.createExecution userRequest now) (s.createExecution userRequest now)
  | dequeue (job : Job) (queue : List Job) (hqueue : s.redis.queue = job :: queue) :
      StepsTo cfg s .dequeue
        { s with handlers := s.handlers ++ [job.handler], redis := { s.redis with queue := queue } }
  | promoteDue : StepsTo cfg s .promoteDue { s with handlers := s.handlers ++ [.promoteSelect] }
  | recoverStaleTasks :
      StepsTo cfg s .recoverStaleTasks { s with handlers := s.handlers ++ [.recoverSelect] }
  | move (hid : Nat) (o : Oracle) (pc pc' : Pc) (hpc : s.handlers[hid]? = some pc)
      (hlive : pc ≠ .done) (hact : pc.act cfg o s.db s.redis = .goto pc') :
      StepsTo cfg s (.run hid o) { s with handlers := s.handlers.set hid pc', clock := o.now }
  | commit (hid : Nat) (o : Oracle) (pc : Pc) (τ : Txn) (k : Nat → Pc)
      (hpc : s.handlers[hid]? = some pc) (hlive : pc ≠ .done)
      (hact : pc.act cfg o s.db s.redis = .commit τ k) :
      StepsTo cfg s (.run hid o)
        { s with
          db := s.db.commit o.now τ
          handlers := s.handlers.set hid (k (s.db.rowcount τ))
          clock := o.now }
  | send (hid : Nat) (o : Oracle) (pc : Pc) (c : Command) (k : Nat → Pc)
      (hpc : s.handlers[hid]? = some pc) (hlive : pc ≠ .done)
      (hact : pc.act cfg o s.db s.redis = .send c k) :
      StepsTo cfg s (.run hid o)
        { s with
          redis := s.redis.send c
          handlers := s.handlers.set hid (k (s.redis.reply c))
          clock := o.now }
  | redeliver (job : Job) (hjob : job ∈ s.redis.published) :
      StepsTo cfg s (.redeliver job) { s with handlers := s.handlers ++ [job.handler] }
  | raise (hid : Nat) (exc : Exn) (pc : Pc) (hpc : s.handlers[hid]? = some pc)
      (hlive : pc ≠ .done) :
      StepsTo cfg s (.raise hid exc) { s with handlers := s.handlers.set hid (pc.raised exc) }
  | crash (hid : Nat) (pc : Pc) (hpc : s.handlers[hid]? = some pc) (hlive : pc ≠ .done) :
      StepsTo cfg s (.crash hid) { s with handlers := s.handlers.set hid .done }

theorem State.live?_eq_some {hid : Nat} {pc : Pc} (h : s.live? hid = some pc) :
    s.handlers[hid]? = some pc ∧ pc ≠ .done := by
  unfold State.live? at h
  split at h
  · simp at h
  · next found hne =>
      refine ⟨h, ?_⟩
      rintro rfl
      exact hne h

/-- The step of a handler in progress. -/
theorem State.eq_perform {hid : Nat} {o : Oracle} {pc : Pc} (hlive : s.live? hid = some pc)
    (h : s.step cfg (.run hid o) = some s') :
    s' = s.perform hid o.now (pc.act cfg o s.db s.redis) := by
  rw [State.step, hlive] at h
  exact (Option.some.inj h).symm

theorem State.stepsTo (h : s.step cfg ev = some s') : StepsTo cfg s ev s' := by
  cases ev with
  | createExecution userRequest now =>
      obtain rfl := Option.some.inj h
      exact .createExecution userRequest now
  | dequeue =>
      simp only [State.step] at h
      split at h
      · simp at h
      · next job queue hq =>
          obtain rfl := Option.some.inj h
          exact .dequeue job queue hq
  | promoteDue =>
      obtain rfl := Option.some.inj h
      exact .promoteDue
  | recoverStaleTasks =>
      obtain rfl := Option.some.inj h
      exact .recoverStaleTasks
  | run hid o =>
      obtain ⟨pc, hpc, rfl⟩ := Option.map_eq_some_iff.1 h
      obtain ⟨hpc, hlive⟩ := State.live?_eq_some hpc
      cases hact : pc.act cfg o s.db s.redis with
      | goto pc' => exact .move hid o pc pc' hpc hlive hact
      | commit τ k => exact .commit hid o pc τ k hpc hlive hact
      | send c k => exact .send hid o pc c k hpc hlive hact
  | redeliver job =>
      simp only [State.step] at h
      split at h
      · next hjob =>
          obtain rfl := Option.some.inj h
          exact .redeliver job hjob
      · simp at h
  | raise hid exc =>
      obtain ⟨pc, hpc, rfl⟩ := Option.map_eq_some_iff.1 h
      obtain ⟨hpc, hlive⟩ := State.live?_eq_some hpc
      exact .raise hid exc pc hpc hlive
  | crash hid =>
      obtain ⟨pc, hpc, rfl⟩ := Option.map_eq_some_iff.1 h
      obtain ⟨hpc, hlive⟩ := State.live?_eq_some hpc
      exact .crash hid pc hpc hlive

/-- The event starts a handler at the program point. -/
inductive State.Starts (s : State) : Event → Pc → Prop
  | createExecution (userRequest : String) (now : Time) :
      Starts s (.createExecution userRequest now) (.enqueuePlan (s.newExecution userRequest now).id)
  | dequeue (job : Job) (queue : List Job) (hqueue : s.redis.queue = job :: queue) :
      Starts s .dequeue job.handler
  | redeliver (job : Job) (hjob : job ∈ s.redis.published) : Starts s (.redeliver job) job.handler
  | promoteDue : Starts s .promoteDue .promoteSelect
  | recoverStaleTasks : Starts s .recoverStaleTasks .recoverSelect

/-- The invariant rule for handlers: what they all satisfy, the others keep, new ones have, and the one
    that moves keeps with its move, they all satisfy afterwards. -/
theorem State.forall_handler {P Q : Nat → Pc → Prop} (hs : s.step cfg ev = some s')
    (h : ∀ hid pc, s.handlers[hid]? = some pc → P hid pc)
    (hkeep : ∀ hid pc, s.handlers[hid]? = some pc → P hid pc → Q hid pc)
    (hstart : ∀ hid pc, s.Starts ev pc → Q hid pc)
    (hmove : ∀ hid o pc pc', ev = .run hid o → s.handlers[hid]? = some pc →
      pc.act cfg o s.db s.redis = .goto pc' → s'.db = s.db → P hid pc → Q hid pc')
    (hcommit : ∀ hid o pc τ k, ev = .run hid o → s.handlers[hid]? = some pc →
      pc.Commits cfg o s.db τ k → s'.db = s.db.commit o.now τ → P hid pc →
        Q hid (k (s.db.rowcount τ)))
    (hsend : ∀ hid o pc c k, ev = .run hid o → s.handlers[hid]? = some pc → pc.Sends c k →
      s'.redis = s.redis.send c → P hid pc → Q hid (k (s.redis.reply c)))
    (hraise : ∀ hid exc pc, ev = .raise hid exc → s.handlers[hid]? = some pc → P hid pc →
      Q hid (pc.raised exc))
    (hdone : ∀ hid, Q hid .done) : ∀ hid pc, s'.handlers[hid]? = some pc → Q hid pc := by
  have hold : ∀ hid pc, s.handlers[hid]? = some pc → Q hid pc := fun hid pc hpc =>
    hkeep hid pc hpc (h hid pc hpc)
  have hspawn : ∀ {pc : Pc}, s.Starts ev pc → ∀ hid pc', (s.handlers ++ [pc])[hid]? = some pc' →
      Q hid pc' := by
    intro pc hpc hid pc' hfound
    rcases Pool.getElem?_of_append hfound with hfound | rfl
    · exact hold hid pc' hfound
    · exact hstart hid _ hpc
  have hset : ∀ {hid₀ : Nat} {pc₀ : Pc}, Q hid₀ pc₀ → ∀ hid pc,
      (s.handlers.set hid₀ pc₀)[hid]? = some pc → Q hid pc := by
    intro hid₀ pc₀ hnew hid pc hfound
    rcases Pool.getElem?_of_set hfound with hfound | ⟨rfl, rfl⟩
    · exact hold hid pc hfound
    · exact hnew
  cases State.stepsTo hs with
  | createExecution userRequest now => exact hspawn (.createExecution userRequest now)
  | dequeue job queue hqueue => exact hspawn (.dequeue job queue hqueue)
  | redeliver job hjob => exact hspawn (.redeliver job hjob)
  | promoteDue => exact hspawn .promoteDue
  | recoverStaleTasks => exact hspawn .recoverStaleTasks
  | move hid o pc pc' hpc hlive hact =>
      exact hset (hmove hid o pc pc' rfl hpc hact rfl (h hid pc hpc))
  | commit hid o pc τ k hpc hlive hact =>
      exact hset (hcommit hid o pc τ k rfl hpc (Pc.commits_of_act hact) rfl (h hid pc hpc))
  | send hid o pc c k hpc hlive hact =>
      exact hset (hsend hid o pc c k rfl hpc (Pc.sends_of_act hact) rfl (h hid pc hpc))
  | raise hid exc pc hpc hlive => exact hset (hraise hid exc pc rfl hpc (h hid pc hpc))
  | crash hid pc hpc hlive => exact hset (hdone hid)

/-- The rule for what does not depend on the handler's place. -/
theorem State.forall_handlers {P Q : Pc → Prop} (hs : s.step cfg ev = some s')
    (h : ∀ pc ∈ s.handlers, P pc) (hkeep : ∀ pc ∈ s.handlers, P pc → Q pc)
    (hstart : ∀ pc, s.Starts ev pc → Q pc)
    (hmove : ∀ hid o pc pc', ev = .run hid o → s.handlers[hid]? = some pc →
      pc.act cfg o s.db s.redis = .goto pc' → s'.db = s.db → P pc → Q pc')
    (hcommit : ∀ hid o pc τ k, ev = .run hid o → s.handlers[hid]? = some pc →
      pc.Commits cfg o s.db τ k → s'.db = s.db.commit o.now τ → P pc → Q (k (s.db.rowcount τ)))
    (hsend : ∀ hid o pc c k, ev = .run hid o → s.handlers[hid]? = some pc → pc.Sends c k →
      s'.redis = s.redis.send c → P pc → Q (k (s.redis.reply c)))
    (hraise : ∀ hid exc pc, ev = .raise hid exc → s.handlers[hid]? = some pc → P pc →
      Q (pc.raised exc))
    (hdone : Q .done) : ∀ pc ∈ s'.handlers, Q pc := by
  intro pc hpc
  obtain ⟨hid, hpc⟩ := List.mem_iff_getElem?.1 hpc
  exact State.forall_handler (P := fun _ => P) (Q := fun _ => Q) hs
    (fun hid pc hpc => h pc (List.mem_of_getElem? hpc))
    (fun hid pc hpc => hkeep pc (List.mem_of_getElem? hpc)) (fun _ => hstart) hmove hcommit hsend
    hraise (fun _ => hdone) hid pc hpc

/-- Where a task row after an event comes from: it was there before, a write site rewrote it, or it has
    just been planned. -/
inductive RowOrigin (cfg : Config) (s : State) (ev : Event) (s' : State) (t' : Task) : Prop
  | kept (h : t' ∈ s.db.tasks)
  | set (hid : Nat) (o : Oracle) (pc : Pc) (τ : Txn) (k : Nat → Pc) (t : Task) (u : TaskUpdate)
      (hev : ev = .run hid o) (hpc : s.handlers[hid]? = some pc) (hcommit : pc.Commits cfg o s.db τ k)
      (hdb : s'.db = s.db.commit o.now τ) (ht : t ∈ s.db.tasks)
      (hu : τ.taskUpdate? = some (t.id, u)) (hg : u.guard t = true) (heq : t' = u.set o.now t)
  | planned (o : Oracle) (e : ExecutionId) (i : Nat) (sub : PlannedSubtask)
      (heq : t' = s.db.plannedTask e o.now i sub)

theorem row_origin (hs : s.step cfg ev = some s') {t' : Task} (ht' : t' ∈ s'.db.tasks) :
    RowOrigin cfg s ev s' t' := by
  cases State.stepsTo hs with
  | commit hid o pc τ k hpc hlive hact =>
      rcases Db.mem_commit ht' with ⟨hmem, -⟩ | ⟨t, ht, u, hu, hg, heq⟩ | ⟨e, plan, i, sub, -, -, heq⟩
      · exact .kept hmem
      · exact .set hid o pc τ k t u rfl hpc (Pc.commits_of_act hact) rfl ht hu hg heq
      · exact .planned o e i sub heq
  | createExecution | dequeue | promoteDue | recoverStaleTasks | move | send | redeliver | raise
    | crash => exact .kept ht'

/-! ## Weights

What the handlers hold together is counted by a weight on program points. -/

/-- The total weight of the handlers. -/
def State.weight (f : Pc → Nat) (s : State) : Nat := (s.handlers.map f).sum

theorem State.weight_set (f : Pc → Nat) {hid : Nat} {pc pc' : Pc}
    (hpc : s.handlers[hid]? = some pc) (hs : s'.handlers = s.handlers.set hid pc') :
    s'.weight f + f pc = s.weight f + f pc' := by
  rw [State.weight, hs]
  exact Pool.sum_set f hpc

theorem State.weight_spawn (f : Pc → Nat) {pc : Pc} (hs : s'.handlers = s.handlers ++ [pc]) :
    s'.weight f = s.weight f + f pc := by
  simp [State.weight, hs]

/-! ## At most one planner -/

/-- The handler is between its PENDING to PLANNING update of `e` and the insert of the tasks. -/
def Pc.plans (e : ExecutionId) : Pc → Nat
  | .planLlm e' _ | .planInsert e' _ => if e' = e then 1 else 0
  | _ => 0

/-- How many handlers are planning the execution. -/
def State.planners (s : State) (e : ExecutionId) : Nat := s.weight (Pc.plans e)

@[simp ↓] theorem ScheduleCaller.resume_plans (e : ExecutionId) (k : ScheduleCaller) :
    k.resume.plans e = 0 :=
  k.observe_resume (Pc.plans e) rfl fun _ => rfl

@[simp ↓] theorem recoverNext_plans (e : ExecutionId) (stale : List Task)
    (affected : List ExecutionId) : (recoverNext stale affected).plans e = 0 :=
  observe_recoverNext (Pc.plans e) (fun _ => rfl) (fun _ _ _ _ _ => rfl) stale affected

@[simp ↓] theorem RetryCaller.resume_plans (e : ExecutionId) (k : RetryCaller) :
    k.resume.plans e = 0 :=
  k.observe_resume (Pc.plans e) (fun _ => rfl) (fun _ => rfl) fun _ _ _ _ _ => rfl

@[simp ↓] theorem finalizeTasks_plans (e : ExecutionId) (x : Execution) (k : ScheduleCaller)
    (tasks : List Task) : (finalizeTasks x k tasks).plans e = 0 :=
  observe_finalizeTasks (Pc.plans e) rfl (fun _ => rfl) (fun _ _ _ _ _ => rfl) (fun _ _ _ => rfl) x k
    tasks

theorem Pc.Moves.plans_le {o : Oracle} {db : Db} {r : Redis} {pc pc' : Pc} (e : ExecutionId)
    (h : pc.Moves cfg o db r pc') : pc'.plans e ≤ pc.plans e := by
  cases h <;> simp [Pc.plans]

/-- Planning an execution only starts with a successful PENDING to PLANNING update. -/
theorem Pc.Commits.plans_le {o : Oracle} {db : Db} {pc : Pc} {τ : Txn} {k : Nat → Pc}
    (e : ExecutionId) (n : Nat) (h : pc.Commits cfg o db τ k) :
    (k n).plans e ≤ pc.plans e ∨
      τ = .updateExecution e (.guardExecution .pending .planning) ∧ n = 1 := by
  cases h with
  | planGuard e' userRequest =>
      by_cases hn : n = 1
      · by_cases he : e' = e
        · exact .inr ⟨by rw [he], hn⟩
        · simp [hn, Pc.plans, he]
      · simp [hn, Pc.plans]
  | _ => simp [Pc.plans, ↓apply_ite (Pc.plans e)]

theorem Pc.Sends.plans_eq {pc : Pc} {c : Command} {k : Nat → Pc} (e : ExecutionId) (n : Nat)
    (h : pc.Sends c k) : (k n).plans e = 0 := by
  cases h <;> simp [Pc.plans, ↓apply_ite (Pc.plans e)]

@[simp] theorem Job.handler_plans (e : ExecutionId) (job : Job) : job.handler.plans e = 0 := by
  cases job <;> rfl

@[simp] theorem Pc.raised_plans (e : ExecutionId) (exc : Exn) (pc : Pc) :
    (pc.raised exc).plans e = 0 := by
  rcases pc.raised_cases exc with h | ⟨e', error, h⟩ | ⟨task, h⟩ <;> rw [h] <;> rfl

/-- The planning of `e`: nobody plans it while it is PENDING, one handler at most does, and there
    are no task rows while one does. -/
structure SlotOk (s : State) (e : ExecutionId) : Prop where
  one : s.planners e ≤ 1
  free : 0 < s.planners e → ¬ s.db.Planned e
  pending : ∀ x ∈ s.db.executions, x.id = e → x.status = .pending →
    s.planners e = 0 ∧ ¬ s.db.Planned e

/-- A step that neither claims nor plans `e` keeps its slot in order. -/
theorem SlotOk.of_le {e : ExecutionId} (h : SlotOk s e) (hle : s'.planners e ≤ s.planners e)
    (hplanned : s'.db.Planned e → s.db.Planned e)
    (hpending : ∀ x' ∈ s'.db.executions, x'.id = e → x'.status = .pending →
      ∃ x ∈ s.db.executions, x.id = e ∧ x.status = .pending) : SlotOk s' e where
  one := Nat.le_trans hle h.one
  free hpos hp := h.free (Nat.lt_of_lt_of_le hpos hle) (hplanned hp)
  pending x' hx' hid hs' := by
    obtain ⟨x, hx, hid, hs⟩ := hpending x' hx' hid hs'
    obtain ⟨hzero, hnot⟩ := h.pending x hx hid hs
    exact ⟨Nat.le_zero.1 (hzero ▸ hle), fun hp => hnot (hplanned hp)⟩

namespace Db

variable {db : Db} {now : Time} {e : ExecutionId}

/-- No admitted transaction makes an execution PENDING. -/
theorem pending_of_commit {τ : Txn} (ha : db.Respects τ) {x' : Execution}
    (hx' : x' ∈ (db.commit now τ).executions) (hs : x'.status = .pending) :
    ∃ x ∈ db.executions, x.id = x'.id ∧ x.status = .pending := by
  cases τ with
  | updateExecution e u =>
      obtain ⟨x, hx, rfl⟩ := mem_updateExecution.1 hx'
      refine ⟨x, hx, ?_⟩
      split at hs
      · next hg => cases u <;> simp_all [ExecutionUpdate.set, Respects]
      · next hg => simp [hg, hs]
  | updateTask | insertTasks | persistSuccess => exact ⟨x', hx', rfl, hs⟩

/-- Only the batch insert plans an execution. -/
theorem planned_of_commit {τ : Txn} (hp : (db.commit now τ).Planned e) :
    db.Planned e ∨ ∃ plan, τ = .insertTasks e plan := by
  obtain ⟨t', ht', rfl⟩ := hp
  cases τ with
  | updateExecution => exact .inl ⟨t', ht', rfl⟩
  | updateTask tid u =>
      obtain ⟨t, ht, rfl⟩ := mem_updateTask.1 ht'
      refine .inl ⟨t, ht, ?_⟩
      split
      · exact (TaskUpdate.le (by simp_all)).executionId.symm
      · rfl
  | insertTasks e plan =>
      rcases mem_insertTasks.1 ht' with ht | ⟨i, s, -, rfl⟩
      · exact .inl ⟨t', ht, rfl⟩
      · exact .inr ⟨plan, rfl⟩
  | persistSuccess tid output stamp metrics =>
      obtain ⟨t, ht, rfl⟩ := mem_updateTask.1 ht'
      refine .inl ⟨t, ht, ?_⟩
      split
      · exact (TaskUpdate.le (by simp_all)).executionId.symm
      · rfl

end Db

/-- The claim of a PENDING execution takes its free slot. -/
theorem SlotOk.claim {hid : Nat} {o : Oracle} {e : ExecutionId} {userRequest : String}
    (h : SlotOk s e) (hpc : s.handlers[hid]? = some (.planGuard e userRequest))
    (hn : s.db.rowcount (.updateExecution e (.guardExecution .pending .planning)) = 1)
    (hs : s'.handlers = s.handlers.set hid (.planLlm e userRequest))
    (hdb : s'.db = s.db.updateExecution o.now e (.guardExecution .pending .planning)) :
    SlotOk s' e := by
  obtain ⟨x, hx, hid', hg⟩ := Table.rowcount_eq_one_iff.1 hn
  obtain ⟨hzero, hnot⟩ := h.pending x hx hid' (by simpa [ExecutionUpdate.guard] using hg)
  have hweight := State.weight_set (Pc.plans e) hpc hs
  have hone : s'.planners e = 1 := by
    simp only [State.planners] at hzero ⊢
    simp only [Pc.plans, if_true] at hweight
    omega
  refine ⟨by omega, fun _ => hdb ▸ hnot, fun x' hx' hid'' hs' => ?_⟩
  rw [hdb] at hx'
  obtain ⟨y, hy, rfl⟩ := Db.mem_updateExecution.1 hx'
  split at hs' <;> simp_all [ExecutionUpdate.set, ExecutionUpdate.guard]

theorem SlotOk.commit {hid : Nat} {o : Oracle} {pc : Pc} {τ : Txn} {k : Nat → Pc}
    {e : ExecutionId} (h : SlotOk s e) (ha : s.db.Admits τ) (hcommit : pc.Commits cfg o s.db τ k)
    (hpc : s.handlers[hid]? = some pc)
    (hs : s'.handlers = s.handlers.set hid (k (s.db.rowcount τ)))
    (hdb : s'.db = s.db.commit o.now τ) : SlotOk s' e := by
  have hweight := State.weight_set (Pc.plans e) hpc hs
  rcases hcommit.plans_le e (s.db.rowcount τ) with hle | ⟨rfl, hn⟩
  · have hplanners : s'.planners e ≤ s.planners e := by
      simp only [State.planners]
      omega
    have hpending : ∀ x' ∈ s'.db.executions, x'.id = e → x'.status = .pending →
        ∃ x ∈ s.db.executions, x.id = e ∧ x.status = .pending := by
      rintro x' hx' rfl hs'
      exact Db.pending_of_commit ha.respects (hdb ▸ hx') hs'
    by_cases hnew : ∃ plan, τ = .insertTasks e plan
    · obtain ⟨plan, rfl⟩ := hnew
      cases hcommit
      simp only [Pc.plans, if_true] at hweight
      have hone := h.one
      have hzero : s'.planners e = 0 := by
        simp only [State.planners] at hone ⊢
        omega
      refine ⟨by omega, fun hpos => by omega, fun x' hx' hid' hs' => ?_⟩
      obtain ⟨x, hx, hid, hst⟩ := hpending x' hx' hid' hs'
      have hnone := (h.pending x hx hid hst).1
      simp only [State.planners] at hnone
      omega
    · refine h.of_le hplanners (fun hp => ?_) hpending
      exact (Db.planned_of_commit (hdb ▸ hp)).resolve_right hnew
  · cases hcommit
    exact h.claim hpc hn (by simpa [hn] using hs) hdb

/-! ## A new execution -/

theorem State.mem_createExecution {userRequest : String} {now : Time} {x : Execution} :
    x ∈ (s.createExecution userRequest now).db.executions ↔
      x ∈ s.db.executions ∨ x = s.newExecution userRequest now := by
  have hnew : ∀ r ∈ [s.newExecution userRequest now], ∀ r' ∈ s.db.executions, r'.id ≠ r.id := by
    intro r hr r' hr'
    obtain rfl := List.mem_singleton.1 hr
    exact Nat.ne_of_lt (Table.key_lt_fresh hr')
  have : x ∈ s.db.executions.insertAll [s.newExecution userRequest now] ↔ _ :=
    Table.mem_insertAll hnew (by simp)
  simpa [State.createExecution] using this

theorem State.createExecution_le (userRequest : String) (now : Time) :
    s.db.Le (s.createExecution userRequest now).db where
  execution x hx := ⟨x, State.mem_createExecution.2 (.inl hx), rfl, rfl, fun h => h⟩
  task t ht := ⟨t, ht, .refl t⟩
  noNewTask t ht := .inl ⟨t, ht, .refl t⟩
  result _ hr := hr

theorem not_submitted_fresh (s : State) : ¬ s.db.Submitted s.db.executions.fresh := by
  rintro ⟨x, hx, hid⟩
  exact Nat.ne_of_lt (Table.key_lt_fresh hx) hid

/-- A handler that plans an execution knows that it exists. -/
theorem Pc.Knows.submitted {db : Db} {pc : Pc} {e : ExecutionId} (hk : pc.Knows db)
    (hpos : 0 < pc.plans e) : db.Submitted e := by
  cases pc with
  | planLlm e' userRequest =>
      obtain ⟨x, hx, rfl, -⟩ := hk
      by_cases he : x.id = e
      · exact ⟨x, hx, he⟩
      · simp [Pc.plans, he] at hpos
  | planInsert e' plan =>
      by_cases he : e' = e
      · exact he ▸ hk
      · simp [Pc.plans, he] at hpos
  | _ => simp [Pc.plans] at hpos

/-! ## The invariant -/

/-- The invariant of queue mode. -/
structure Inv (s : State) : Prop where
  wellFormed : s.db.WellFormed
  redis : s.redis.Known s.db
  knows : ∀ pc ∈ s.handlers, pc.Knows s.db
  slot : ∀ e, SlotOk s e

theorem inv_init : Inv {} where
  wellFormed := Db.wellFormed_empty
  redis := ⟨by simp, by simp, by simp⟩
  knows := by simp
  slot e := ⟨by simp [State.planners, State.weight], by simp [State.planners, State.weight], by simp⟩

/-- Starting a handler that knows its program point. -/
theorem Inv.spawn (h : Inv s) (pc : Pc) (hk : pc.Knows s.db) (hplans : ∀ e, pc.plans e = 0)
    (hdb : s'.db = s.db) (hredis : s'.redis.Known s.db) (hs : s'.handlers = s.handlers ++ [pc]) :
    Inv s' where
  wellFormed := hdb ▸ h.wellFormed
  redis := hdb ▸ hredis
  knows pc' hmem := by
    rw [hs, List.mem_append, List.mem_singleton] at hmem
    rcases hmem with hmem | rfl
    · exact hdb ▸ h.knows pc' hmem
    · exact hdb ▸ hk
  slot e := by
    refine (h.slot e).of_le ?_ (hdb ▸ id) fun x hx hid hst => ⟨x, hdb ▸ hx, hid, hst⟩
    exact Nat.le_of_eq (by rw [State.planners, State.weight_spawn _ hs, hplans, State.planners]; rfl)

/-- A handler goes on without an effect on the database. -/
theorem Inv.move (h : Inv s) {hid : Nat} {pc : Pc} (hpc : s.handlers[hid]? = some pc) (pc' : Pc)
    (hk : pc'.Knows s.db) (hplans : ∀ e, pc'.plans e ≤ pc.plans e) (hdb : s'.db = s.db)
    (hredis : s'.redis.Known s.db) (hs : s'.handlers = s.handlers.set hid pc') : Inv s' where
  wellFormed := hdb ▸ h.wellFormed
  redis := hdb ▸ hredis
  knows := by
    rw [hs, hdb]
    exact Pool.forall_set hk h.knows
  slot e := by
    have hweight := State.weight_set (Pc.plans e) hpc hs
    have := hplans e
    refine (h.slot e).of_le ?_ (hdb ▸ id) fun x hx hid hst => ⟨x, hdb ▸ hx, hid, hst⟩
    simp only [State.planners]
    omega

theorem Inv.createExecution (h : Inv s) (userRequest : String) (now : Time) :
    Inv (s.createExecution userRequest now) where
  wellFormed := by
    have hle := State.createExecution_le (s := s) userRequest now
    have hwf := h.wellFormed
    exact ⟨⟨fun t ht => (hwf.owner t ht).mono hle, hwf.index, hwf.depends, hwf.nonneg,
      fun t ht => (hwf.rows t ht).mono hle (Db.RowOk.planned ht)⟩, hwf.result⟩
  redis := h.redis.mono (State.createExecution_le userRequest now)
  knows pc hmem := by
    simp only [State.createExecution, State.spawn, List.mem_append, List.mem_singleton] at hmem
    rcases hmem with hmem | rfl
    · exact (h.knows pc hmem).mono (State.createExecution_le userRequest now)
    · exact ⟨_, State.mem_createExecution.2 (.inr rfl), rfl⟩
  slot e := by
    have hhandlers : (s.createExecution userRequest now).handlers =
        s.handlers ++ [.enqueuePlan (s.newExecution userRequest now).id] := rfl
    have hweight : (s.createExecution userRequest now).planners e = s.planners e :=
      State.weight_spawn (Pc.plans e) hhandlers
    refine ⟨hweight ▸ (h.slot e).one, fun hpos => (h.slot e).free (hweight ▸ hpos), ?_⟩
    rintro x hx rfl hs
    rcases State.mem_createExecution.1 hx with hx | rfl
    · exact hweight ▸ (h.slot x.id).pending x hx rfl hs
    · rw [hweight]
      refine ⟨?_, fun hp => not_submitted_fresh s (hp.submitted h.wellFormed)⟩
      by_contra hne
      obtain ⟨pc, hpc, hpos⟩ := Pool.exists_of_sum_pos _ (Nat.pos_of_ne_zero hne)
      exact not_submitted_fresh s ((h.knows pc hpc).submitted hpos)

/-- No row of an execution is there while a handler is about to insert its tasks. -/
theorem Inv.not_planned (h : Inv s) {hid : Nat} {e : ExecutionId} {plan : Plan}
    (hpc : s.handlers[hid]? = some (.planInsert e plan)) : ¬ s.db.Planned e := by
  have := Pool.le_sum (Pc.plans e) hpc
  simp only [Pc.plans, if_true] at this
  exact (h.slot e).free this

theorem Inv.act_ok (h : Inv s) {hid : Nat} {o : Oracle} {pc : Pc}
    (hpc : s.handlers[hid]? = some pc) : (pc.act cfg o s.db s.redis).Ok o.now s.db s.redis :=
  Pc.act_ok h.wellFormed h.redis (h.knows pc (List.mem_of_getElem? hpc))
    fun _ _ heq => h.not_planned (heq ▸ hpc)

/-- Every step keeps the invariant and moves the database forward. -/
theorem Inv.step (h : Inv s) (hstep : s.step cfg ev = some s') : Inv s' ∧ s.db.Le s'.db := by
  cases State.stepsTo hstep with
  | createExecution userRequest now =>
      exact ⟨h.createExecution userRequest now, State.createExecution_le userRequest now⟩
  | dequeue job queue hqueue =>
      have hmem : ∀ j ∈ job :: queue, j ∈ s.redis.published := hqueue ▸ h.redis.queue
      have hredis : Redis.Known { s.redis with queue := queue } s.db :=
        ⟨h.redis.published, fun j hj => hmem j (List.mem_cons_of_mem _ hj), h.redis.delayed⟩
      have hjob := h.redis.published job (hmem job List.mem_cons_self)
      exact ⟨h.spawn _ (Job.handler_knows hjob) (by simp) rfl hredis rfl, .refl _⟩
  | promoteDue =>
      exact ⟨h.spawn .promoteSelect trivial (fun _ => rfl) rfl h.redis rfl, .refl _⟩
  | recoverStaleTasks =>
      exact ⟨h.spawn .recoverSelect trivial (fun _ => rfl) rfl h.redis rfl, .refl _⟩
  | move hid o pc pc' hpc hlive hact =>
      have hok : (Act.goto pc').Ok o.now s.db s.redis := hact ▸ h.act_ok hpc
      exact ⟨h.move hpc _ hok.next (Pc.moves_of_act hact).plans_le rfl h.redis rfl, .refl _⟩
  | commit hid o pc τ k hpc hlive hact =>
      have hok : (Act.commit τ k).Ok o.now s.db s.redis := hact ▸ h.act_ok hpc
      have hle : s.db.Le (s.db.commit o.now τ) := Db.le_commit hok.allowed.respects
      refine ⟨⟨h.wellFormed.commit hok.allowed, h.redis.mono hle, ?_, fun e => ?_⟩, hle⟩
      · exact Pool.forall_set hok.next fun pc' hmem => (h.knows pc' hmem).mono hle
      · exact (h.slot e).commit hok.allowed (Pc.commits_of_act hact) hpc rfl rfl
  | send hid o pc c k hpc hlive hact =>
      have hok : (Act.send c k).Ok o.now s.db s.redis := hact ▸ h.act_ok hpc
      refine ⟨h.move hpc _ hok.next (fun e => ?_) rfl (h.redis.send hok.allowed) rfl, .refl _⟩
      have hzero := (Pc.sends_of_act hact).plans_eq e (s.redis.reply c)
      exact Nat.le_trans (Nat.le_of_eq hzero) (Nat.zero_le _)
  | redeliver job hjob =>
      exact ⟨h.spawn _ (Job.handler_knows (h.redis.published job hjob)) (by simp) rfl h.redis rfl,
        .refl _⟩
  | raise hid exc pc hpc hlive =>
      have hk := Pc.raised_knows exc (h.knows pc (List.mem_of_getElem? hpc))
      exact ⟨h.move hpc _ hk (by simp) rfl h.redis rfl, .refl _⟩
  | crash hid pc hpc hlive =>
      exact ⟨h.move hpc .done trivial (fun _ => Nat.zero_le _) rfl h.redis rfl, .refl _⟩

/-- Whatever the environment does, the invariant holds in every reachable state. -/
theorem reachable_inv {E : State → Event → Prop} (h : (queueMode cfg).Reachable E s) : Inv s :=
  h.invariant inv_init fun _ _ _ _ hi _ hs => (hi.step hs).1

theorem step_le {E : State → Event → Prop} (h : (queueMode cfg).Reachable E s)
    (hs : (queueMode cfg).step s ev = some s') : s.db.Le s'.db :=
  ((reachable_inv h).step hs).2

/-- Along every run from a reachable state the database moves forward. -/
theorem path_le {E : State → Event → Prop} (h : (queueMode cfg).Reachable E s)
    (hp : (queueMode cfg).Path E s s') : s.db.Le s'.db :=
  h.stable (R := fun s s' => s.db.Le s'.db) (.refl _)
    (fun _ _ _ hr hle _ hs => hle.trans (step_le hr hs)) hp

end AgenticExecution
