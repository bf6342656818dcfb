import AgenticExecution.Billing
import AgenticExecution.Transcript
import Mathlib.Data.List.Dedup
import Mathlib.Algebra.BigOperators.Group.List.Lemmas

set_option autoImplicit false

/-! # Metrics

`collect_metrics` aggregates the tables on demand, one SQL statement for each figure and one Redis
command for each queue depth. Nothing holds the tables still in between, so every statement meets a
state of its own. Its counters still behave as counters: from one scrape to the next none decreases. -/

namespace AgenticExecution

/-! ## The aggregates of SQL -/

/-- `SELECT key, count(*) … GROUP BY key`. -/
def groupCounts {ρ κ : Type} [DecidableEq κ] (key : ρ → κ) (rows : List ρ) : List (κ × Nat) :=
  (rows.map key).dedup.map fun k => (k, (rows.map key).count k)

/-- `coalesce(sum(column), 0)`: NULLs are left out. -/
def sqlSum {ρ M : Type} [Zero M] [Add M] (column : ρ → Option M) (rows : List ρ) : M :=
  (rows.filterMap column).sum

/-- `avg(column)`. -/
def sqlAvg {ρ : Type} (column : ρ → Option Int) (rows : List ρ) : Option ℚ :=
  let values := rows.filterMap column
  if values.isEmpty then none else some (values.sum / values.length)

/-- `_round`. -/
def roundAvg (value : Option ℚ) : Option ℚ := value.map fun x => Double.roundTo 1 (Double.round x)

/-- `max(column)`. -/
def sqlMax {ρ : Type} (column : ρ → Option Int) (rows : List ρ) : Option Int :=
  (rows.filterMap column).max?

/-! ## collect_metrics -/

/-- The members of the enumeration, as the source lists them. -/
def ExecutionStatus.members : List ExecutionStatus :=
  [.pending, .planning, .running, .completed, .failed]

/-- The members of the enumeration, as the source lists them. -/
def TaskStatus.members : List TaskStatus := [.pending, .running, .retrying, .completed, .failed]

/-- `{s.value: counts.get(s.value, 0) for s in …}`. -/
def byStatus {κ : Type} [BEq κ] (members : List κ) (counts : List (κ × Nat)) : List (κ × Nat) :=
  members.map fun s => (s, (counts.lookup s).getD 0)

/-- The lengths of the three keys. -/
structure QueueDepths where
  mainDepth : Nat
  delayedDepth : Nat
  deadLetterDepth : Nat

/-- The dict `collect_metrics` returns. -/
structure CollectedMetrics where
  executionsTotal : Nat
  executionsByStatus : List (ExecutionStatus × Nat)
  tasksTotal : Nat
  tasksByStatus : List (TaskStatus × Nat)
  executionAvg : Option ℚ
  executionMax : Option Int
  taskAvg : Option ℚ
  taskMax : Option Int
  totalTokens : Int
  totalCostUsd : ℚ
  totalCalls : Int
  /-- `none` outside queue mode; the text of the exception where Redis does not answer. -/
  queue : Option (Except String QueueDepths)

/-- The three queue depths; each is a command of its own, and any of them may raise. -/
def queueDepths (redis : Nat → Except Exn Redis) : Except String QueueDepths :=
  match redis 0, redis 1, redis 2 with
  | .ok main, .ok delayed, .ok dlq =>
    .ok
      { mainDepth := main.queue.length
        delayedDepth := delayed.delayed.rows.length
        deadLetterDepth := dlq.dlq.length }
  | .error exc, _, _ | _, .error exc, _ | _, _, .error exc => .error exc.message

/-- `collect_metrics`: statement `i` reads the database `read i`, command `i` meets `redis i`. -/
def collectMetrics (executionMode : String) (read : Nat → Db) (redis : Nat → Except Exn Redis) :
    CollectedMetrics :=
  let execCounts := groupCounts Execution.status (read 0).executions.rows
  let taskCounts := groupCounts Task.status (read 1).tasks.rows
  { executionsTotal := (execCounts.map Prod.snd).sum
    executionsByStatus := byStatus ExecutionStatus.members execCounts
    tasksTotal := (taskCounts.map Prod.snd).sum
    tasksByStatus := byStatus TaskStatus.members taskCounts
    totalTokens := sqlSum Task.totalTokens (read 2).tasks.rows
    totalCostUsd := Double.roundTo 6 (Double.round (sqlSum Task.costUsd (read 3).tasks.rows))
    totalCalls := sqlSum (fun t => some t.toolCalls) (read 4).tasks.rows
    taskAvg := roundAvg (sqlAvg Task.durationMs (read 5).tasks.rows)
    taskMax := sqlMax Task.durationMs (read 6).tasks.rows
    executionAvg := roundAvg (sqlAvg Execution.durationMs (read 7).executions.rows)
    executionMax := sqlMax Execution.durationMs (read 8).executions.rows
    queue := if lower executionMode = "queue" then some (queueDepths redis) else none }

/-- `collect_metrics` while the platform runs: its database statements meet the states `states 0` to
    `states 8`, its Redis commands the next three unless they raise. -/
def scrape (executionMode : String) (states : Nat → State) (outage : Nat → Option Exn) :
    CollectedMetrics :=
  collectMetrics executionMode (fun i => (states i).db) fun i =>
    match outage i with
    | some exc => .error exc
    | none => .ok (states (9 + i)).redis

/-! ## Aggregates of tables that grow -/

theorem lookup_map_mk {κ β : Type} [DecidableEq κ] (g : κ → β) (ks : List κ) (k : κ) :
    (ks.map fun k => (k, g k)).lookup k = if k ∈ ks then some (g k) else none := by
  induction ks with
  | nil => rfl
  | cons k' rest ih =>
      rw [List.map_cons, List.lookup_cons]
      by_cases hk : k = k'
      · simp [hk]
      · rw [beq_false_of_ne hk, ih]
        simp [hk]

theorem lookup_groupCounts {ρ κ : Type} [DecidableEq κ] (key : ρ → κ) (rows : List ρ) (k : κ) :
    ((groupCounts key rows).lookup k).getD 0 = rows.countP fun r => key r = k := by
  have hcount : (rows.map key).count k = rows.countP fun r => key r = k := by
    rw [List.count_eq_countP, List.countP_map]
    rfl
  rw [groupCounts, lookup_map_mk, ← hcount]
  split
  · rfl
  · next hmem =>
      rw [List.mem_dedup] at hmem
      exact (List.count_eq_zero_of_not_mem hmem).symm

/-- What the dict says of a status is the number of rows with it. -/
theorem lookup_byStatus {ρ κ : Type} [DecidableEq κ] {members : List κ} (key : ρ → κ)
    (rows : List ρ) {k : κ} (hk : k ∈ members) :
    ((byStatus members (groupCounts key rows)).lookup k).getD 0 = rows.countP fun r => key r = k := by
  rw [byStatus, lookup_map_mk, if_pos hk, Option.getD_some, lookup_groupCounts]

theorem sum_groupCounts {ρ κ : Type} [DecidableEq κ] (key : ρ → κ) (rows : List ρ) :
    ((groupCounts key rows).map Prod.snd).sum = rows.length := by
  rw [groupCounts, List.map_map]
  exact (List.sum_map_count_dedup_eq_length _).trans (List.length_map _)

/-- Every row is counted under exactly one status. -/
theorem sum_byStatus {ρ κ : Type} [DecidableEq κ] {members : List κ} (hnodup : members.Nodup)
    (hall : ∀ k, k ∈ members) (key : ρ → κ) (rows : List ρ) :
    ((byStatus members (groupCounts key rows)).map Prod.snd).sum = rows.length := by
  have hsum := Sums.sum_groups (l := rows) (f := fun _ => 1) hnodup fun r _ => hall (key r)
  simp only [List.map_const', List.sum_replicate_nat, ← List.countP_eq_length_filter,
    Nat.mul_one] at hsum
  rw [← hsum, byStatus, List.map_map]
  exact congrArg List.sum (List.map_congr_left fun k _ => lookup_groupCounts key rows k)

theorem sqlSum_eq {ρ M : Type} [AddCommMonoid M] (column : ρ → Option M) (rows : List ρ) :
    sqlSum column rows = (rows.map fun r => (column r).getD 0).sum := by
  induction rows with
  | nil => rfl
  | cons r rest ih =>
      rw [sqlSum] at ih ⊢
      rw [List.filterMap_cons, List.map_cons, List.sum_cons, ← ih]
      cases column r with
      | none => simp
      | some m => simp

/-- The greatest value does not decrease where every value is still there. -/
theorem sqlMax_le {ρ : Type} {column : ρ → Option Int} {rows rows' : List ρ}
    (h : ∀ r ∈ rows, ∀ n, column r = some n → ∃ r' ∈ rows', column r' = some n) {n : Int}
    (hmax : sqlMax column rows = some n) : ∃ n', sqlMax column rows' = some n' ∧ n ≤ n' := by
  obtain ⟨r, hr, hn⟩ := List.mem_filterMap.1 (List.max?_mem hmax)
  obtain ⟨r', hr', hn'⟩ := h r hr n hn
  have hmem : n ∈ rows'.filterMap column := List.mem_filterMap.2 ⟨r', hr', hn'⟩
  obtain ⟨m, hm⟩ := Option.isSome_iff_exists.1 (List.isSome_max?_of_mem hmem)
  exact ⟨m, hm, (List.max?_le_iff hm).1 (Int.le_refl m) n hmem⟩

/-! ## What the agents report -/

/-- No count is negative. -/
def AgentOutput.nonneg (output : AgentOutput) : Bool :=
  0 ≤ output.promptTokens && 0 ≤ output.completionTokens && 0 ≤ output.totalTokens &&
    0 ≤ output.toolCalls

/-- An agent that returns reports no negative counts. -/
def Event.reportsUsage : Event → Bool
  | .run _ o =>
    match o.agent with
    | .ok output => output.nonneg
    | .error _ => true
  | _ => true

/-- An environment whose agents report no negative counts. -/
def Reports : State → Event → Prop := fun _ ev => ev.reportsUsage = true

/-- No sum is negative. -/
structure Metrics.NonNeg (m : Metrics) : Prop where
  totalTokens : 0 ≤ m.totalTokens
  costUsd : 0 ≤ m.costUsd
  toolCalls : 0 ≤ m.toolCalls

theorem pricing_nonneg : ∀ p ∈ pricing, 0 ≤ p.2.1 ∧ 0 ≤ p.2.2 := by
  intro p hp
  simp only [pricing, List.mem_cons, List.not_mem_nil, or_false] at hp
  rcases hp with rfl | rfl | rfl | rfl | rfl | rfl <;> constructor <;> norm_num

theorem tokenCost_nonneg {tokens : Int} {rate : ℚ} (htokens : 0 ≤ tokens) (hrate : 0 ≤ rate) :
    0 ≤ tokenCost tokens rate := by
  have hthousands : (0 : ℚ) ≤ tokens / 1000 := by
    have htokens : (0 : ℚ) ≤ tokens := by exact_mod_cast htokens
    positivity
  exact Double.round_nonneg
    (mul_nonneg (Double.round_nonneg hthousands) (Double.round_nonneg hrate))

theorem estimateCost_nonneg {model : String} {promptTokens completionTokens : Int}
    (hp : 0 ≤ promptTokens) (hc : 0 ≤ completionTokens) :
    0 ≤ estimateCost model promptTokens completionTokens := by
  have hrates : 0 ≤ ((pricing.lookup model).getD (0, 0)).1 ∧
      0 ≤ ((pricing.lookup model).getD (0, 0)).2 := by
    cases hlookup : pricing.lookup model with
    | none => exact ⟨le_refl 0, le_refl 0⟩
    | some rates =>
        obtain ⟨l, l', heq, -⟩ := List.lookup_eq_some_iff.1 hlookup
        exact pricing_nonneg (model, rates) (heq ▸ List.mem_append_right l List.mem_cons_self)
  exact Double.roundTo_nonneg
    (Double.round_nonneg (add_nonneg (tokenCost_nonneg hp hrates.1) (tokenCost_nonneg hc hrates.2)))

theorem AgentOutput.metrics_nonneg {output : AgentOutput} (h : output.nonneg = true)
    (startedAt : Option Time) (now : Time) : (output.metrics startedAt now).NonNeg := by
  simp only [AgentOutput.nonneg, Bool.and_eq_true, decide_eq_true_eq] at h
  obtain ⟨⟨⟨hprompt, hcompletion⟩, htotal⟩, hcalls⟩ := h
  exact ⟨htotal, estimateCost_nonneg hprompt hcompletion, hcalls⟩

/-- An agent reports no negative counts where its provider reports none. -/
theorem Agent.run_nonneg {agent : Agent} {registry : String → Option Tool} {settings : AgentSettings}
    {taskDescription context : String} {output : AgentOutput}
    (hllm : ∀ messages system tools response, agent.llm.chat messages system tools = .ok response →
      0 ≤ response.promptTokens.getD 0 ∧ 0 ≤ response.completionTokens.getD 0)
    (h : (agent.run registry settings taskDescription context).result = .ok output) :
    output.nonneg = true := by
  let Counts (s : AgentLoop) : Prop :=
    0 ≤ s.promptTokens ∧ 0 ≤ s.completionTokens ∧ 0 ≤ s.toolCallsMade
  have hreceived : ∀ (s : AgentLoop) (tools : List Tool) (response : LLMResponse), Counts s →
      agent.chat tools s.messages = .ok response →
        0 ≤ s.promptTokens + response.promptTokens.getD 0 ∧
          0 ≤ s.completionTokens + response.completionTokens.getD 0 := by
    intro s tools response hs hchat
    obtain ⟨hprompt, hcompletion⟩ := hllm _ _ _ response hchat
    exact ⟨Int.add_nonneg hs.1 hprompt, Int.add_nonneg hs.2.1 hcompletion⟩
  have hfinal : Counts (agent.run registry settings taskDescription context).final := by
    rw [run_final]
    refine loop_rule (I := fun _ => Counts) (Q := fun r => Counts r.1) (fun _ hs => hs)
      (fun _ _ _ hs _ => hs) ?_ ?_ _ _ ⟨Int.le_refl 0, Int.le_refl 0, Int.le_refl 0⟩
    · intro n s response hs hchat _
      obtain ⟨hprompt, hcompletion⟩ := hreceived s _ response hs hchat
      exact ⟨hprompt, hcompletion, hs.2.2⟩
    · intro n s response hs hchat _
      obtain ⟨hprompt, hcompletion⟩ := hreceived s _ response hs hchat
      have hturn := turnTaken settings (agent.tools registry settings) s response
      refine ⟨hturn.promptTokens ▸ hprompt, hturn.completionTokens ▸ hcompletion, ?_⟩
      rw [hturn.toolCallsMade]
      exact Int.add_nonneg hs.2.2 (Int.natCast_nonneg _)
  rw [run_result] at h
  split at h
  · cases h
  · obtain rfl := Except.ok.inj h
    obtain ⟨hprompt, hcompletion, hcalls⟩ := hfinal
    have htotal := Int.add_nonneg hprompt hcompletion
    simp [AgentOutput.nonneg, Agent.output, hprompt, hcompletion, hcalls, htotal]

/-- No figure of the row is negative. -/
structure Task.NonNeg (t : Task) : Prop where
  totalTokens : 0 ≤ t.totalTokens.getD 0
  costUsd : 0 ≤ t.costUsd.getD 0
  toolCalls : 0 ≤ t.toolCalls

/-- What a handler is about to report on a task is not negative. -/
def Pc.Reports : Pc → Prop
  | .persist _ output => output.nonneg = true
  | .persistUpdate _ _ metrics => metrics.NonNeg
  | _ => True

variable {cfg : Config} {s s' : State} {ev : Event}

@[simp ↓] theorem ScheduleCaller.resume_reports (k : ScheduleCaller) : k.resume.Reports = True :=
  k.observe_resume Pc.Reports rfl fun _ => rfl

@[simp ↓] theorem recoverNext_reports (stale : List Task) (affected : List ExecutionId) :
    (recoverNext stale affected).Reports = True :=
  observe_recoverNext Pc.Reports (fun _ => rfl) (fun _ _ _ _ _ => rfl) stale affected

@[simp ↓] theorem RetryCaller.resume_reports (k : RetryCaller) : k.resume.Reports = True :=
  k.observe_resume Pc.Reports (fun _ => rfl) (fun _ => rfl) fun _ _ _ _ _ => rfl

@[simp ↓] theorem finalizeTasks_reports (x : Execution) (k : ScheduleCaller) (tasks : List Task) :
    (finalizeTasks x k tasks).Reports = True :=
  observe_finalizeTasks Pc.Reports rfl (fun _ => rfl) (fun _ _ _ _ _ => rfl) (fun _ _ _ => rfl) x k
    tasks

@[simp] theorem Pc.raised_reports (exc : Exn) (pc : Pc) : (pc.raised exc).Reports := by
  rcases pc.raised_cases exc with h | ⟨e', error, h⟩ | ⟨task, h⟩ <;> rw [h] <;> trivial

theorem Pc.Moves.reports {o : Oracle} {db : Db} {r : Redis} {pc pc' : Pc}
    (h : pc.Moves cfg o db r pc') (hpc : pc.Reports)
    (ho : ∀ output, o.agent = .ok output → output.nonneg = true) : pc'.Reports := by
  cases h with
  | agentReturned task context output hagent => exact ho output hagent
  | integrityError task output result hfind =>
      exact AgentOutput.metrics_nonneg hpc task.startedAt o.now
  | _ => simp [Pc.Reports]

theorem Pc.Commits.reports {o : Oracle} {db : Db} {pc : Pc} {τ : Txn} {k : Nat → Pc} (n : Nat)
    (h : pc.Commits cfg o db τ k) : (k n).Reports := by
  cases h <;> simp [Pc.Reports, ↓apply_ite Pc.Reports]

theorem Pc.Sends.reports {pc : Pc} {c : Command} {k : Nat → Pc} (n : Nat) (h : pc.Sends c k) :
    (k n).Reports := by
  cases h <;> simp [Pc.Reports, ↓apply_ite Pc.Reports]

/-- The figures a write site puts into a row are those its handler reports. -/
theorem Pc.Commits.nonneg {o : Oracle} {db : Db} {pc : Pc} {τ : Txn} {k : Nat → Pc}
    (hcommit : pc.Commits cfg o db τ k) (hpc : pc.Reports) {t : Task} {u : TaskUpdate}
    (hu : τ.taskUpdate? = some (t.id, u)) (h : t.NonNeg) : (u.set o.now t).NonNeg := by
  have hset : ∀ {stamp : Time} {m : Metrics}, m.NonNeg →
      ((TaskUpdate.completeTask stamp m).set o.now t).NonNeg :=
    fun hm => ⟨hm.totalTokens, hm.costUsd, hm.toolCalls⟩
  cases hcommit with
  | persist task output hnew =>
      obtain ⟨-, rfl⟩ := Prod.mk.inj (Option.some.inj hu)
      exact hset (AgentOutput.metrics_nonneg hpc task.startedAt o.now)
  | persistUpdate task stamp metrics =>
      obtain ⟨-, rfl⟩ := Prod.mk.inj (Option.some.inj hu)
      exact hset hpc
  | taskClaim | taskStarted | taskStored | retryTask | failTask | skipTask | markEnqueued =>
      obtain ⟨-, rfl⟩ := Prod.mk.inj (Option.some.inj hu)
      exact ⟨h.totalTokens, h.costUsd, h.toolCalls⟩
  | planGuard | planInsert | planRunning | planStarted | planFail | finalizeComplete
    | finalizeFail => cases hu

/-- No row holds a negative figure, and no handler is about to write one. -/
structure NonNegative (s : State) : Prop where
  task : ∀ t ∈ s.db.tasks, t.NonNeg
  report : ∀ pc ∈ s.handlers, pc.Reports

theorem NonNegative.step (h : NonNegative s) (hE : Reports s ev) (hs : s.step cfg ev = some s') :
    NonNegative s' where
  task t' ht' := by
    cases row_origin hs ht' with
    | kept hmem => exact h.task t' hmem
    | planned o e i sub heq =>
        subst heq
        exact ⟨le_refl 0, le_refl 0, le_refl 0⟩
    | set hid o pc τ k t u hev hpc hcommit hdb ht hu hg heq =>
        subst heq
        exact hcommit.nonneg (h.report pc (List.mem_of_getElem? hpc)) hu (h.task t ht)
  report := by
    refine State.forall_handlers (P := Pc.Reports) hs h.report (fun _ _ hpc => hpc) ?_ ?_ ?_ ?_ ?_
      trivial
    · intro pc hstart
      cases hstart with
      | dequeue job | redeliver job => cases job <;> trivial
      | createExecution | promoteDue | recoverStaleTasks => trivial
    · rintro hid o pc pc' rfl _ hact _ hpc
      refine (Pc.moves_of_act hact).reports hpc fun output hagent => ?_
      simpa [Reports, Event.reportsUsage, hagent] using hE
    · intro hid o pc τ k _ _ hcommit _ _
      exact hcommit.reports _
    · intro hid o pc c k _ _ hsend _ _
      exact hsend.reports _
    · intro hid exc pc _ _ _
      exact pc.raised_reports exc

theorem reachable_nonNegative (h : (queueMode cfg).Reachable Reports s) : NonNegative s :=
  h.invariant (I := NonNegative) ⟨by simp [queueMode], by simp [queueMode]⟩
    fun _ _ _ _ hi hE hs => hi.step hE hs

/-! ## Counters -/

/-- No counter of the second scrape is below that of the first. -/
structure CollectedMetrics.Le (m m' : CollectedMetrics) : Prop where
  executions : m.executionsTotal ≤ m'.executionsTotal
  tasks : m.tasksTotal ≤ m'.tasksTotal
  /-- A COMPLETED execution may still become FAILED, so only the two together are a counter. -/
  finished : (m.executionsByStatus.lookup .completed).getD 0 +
      (m.executionsByStatus.lookup .failed).getD 0 ≤
    (m'.executionsByStatus.lookup .completed).getD 0 + (m'.executionsByStatus.lookup .failed).getD 0
  completed : (m.tasksByStatus.lookup .completed).getD 0 ≤
    (m'.tasksByStatus.lookup .completed).getD 0
  failed : (m.tasksByStatus.lookup .failed).getD 0 ≤ (m'.tasksByStatus.lookup .failed).getD 0
  totalTokens : m.totalTokens ≤ m'.totalTokens
  totalCostUsd : m.totalCostUsd ≤ m'.totalCostUsd
  totalCalls : m.totalCalls ≤ m'.totalCalls
  executionMax : ∀ n, m.executionMax = some n → ∃ n', m'.executionMax = some n' ∧ n ≤ n'
  taskMax : ∀ n, m.taskMax = some n → ∃ n', m'.taskMax = some n' ∧ n ≤ n'
  deadLetters : ∀ d d', m.queue = some (.ok d) → m'.queue = some (.ok d') →
    d.deadLetterDepth ≤ d'.deadLetterDepth

/-- A total of billed figures does not decrease. -/
theorem Db.KeepsBills.sum_le {db db' : Db} {M : Type} [AddCommMonoid M] [PartialOrder M]
    [IsOrderedAddMonoid M] (hk : db.KeepsBills db') (hbills : ∀ t ∈ db.tasks, t.BillOk) {f : Task → M}
    (hbill : ∀ t t' : Task, t'.bill = t.bill → f t' = f t)
    (hzero : ∀ t : Task, t.bill = (none, none, none, 0) → f t = 0)
    (hnonneg : ∀ t ∈ db'.tasks, 0 ≤ f t) :
    (db.tasks.rows.map f).sum ≤ (db'.tasks.rows.map f).sum := by
  refine Sums.le_of_keys db.tasks.nodup (fun t ht => ?_) hnonneg
  obtain ⟨t', ht', hle, hkept⟩ := hk.task t ht
  refine ⟨t', ht', hle.id, ?_⟩
  by_cases hs : t.status = .completed
  · exact le_of_eq (hbill t t' (hkept hs)).symm
  · rw [hzero t (hbills t ht hs)]
    exact hnonneg t' ht'

theorem Db.KeepsBills.count_tasks_le {db db' : Db} (hk : db.KeepsBills db') {p : Task → Bool}
    (hp : ∀ t t', Task.Le t t' → p t = true → p t' = true) :
    db.tasks.rows.countP p ≤ db'.tasks.rows.countP p := by
  refine Sums.countP_le_of_keys db.tasks.nodup fun t ht => ?_
  obtain ⟨t', ht', hle, -⟩ := hk.task t ht
  exact ⟨t', ht', hle.id, hp t t' hle⟩

theorem Db.KeepsBills.count_executions_le {db db' : Db} (hk : db.KeepsBills db')
    {p : Execution → Bool} (hp : ∀ x x' : Execution,
      (x.status.isTerminal = true → x'.status.isTerminal = true) → p x = true → p x' = true) :
    db.executions.rows.countP p ≤ db'.executions.rows.countP p := by
  refine Sums.countP_le_of_keys db.executions.nodup fun x hx => ?_
  obtain ⟨x', hx', hid, hstays⟩ := hk.execution x hx
  exact ⟨x', hx', hid, hp x x' fun hs => (hstays hs).1⟩

theorem countP_terminal (rows : List Execution) :
    (rows.countP fun x => x.status = .completed) + (rows.countP fun x => x.status = .failed) =
      rows.countP fun x => x.status.isTerminal := by
  rw [Sums.countP_eq_sum, Sums.countP_eq_sum, Sums.countP_eq_sum, ← List.sum_map_add]
  refine congrArg List.sum (List.map_congr_left fun x _ => ?_)
  cases x.status <;> rfl

/-- Nothing takes an entry off the dead-letter list. -/
theorem dlq_length_step (hs : s.step cfg ev = some s') :
    s.redis.dlq.length ≤ s'.redis.dlq.length := by
  cases State.stepsTo hs with
  | send hid o pc c k hpc hlive hact =>
      cases c with
      | pushDeadLetter entry => simp [Redis.send]
      | enqueue | scheduleTask | removeDelayed => exact Nat.le_refl _
  | createExecution | dequeue | promoteDue | recoverStaleTasks | move | commit | redeliver | raise
    | crash => exact Nat.le_refl _

theorem queueDepths_ok {redis : Nat → Except Exn Redis} {d : QueueDepths}
    (h : queueDepths redis = .ok d) : ∃ r, redis 2 = .ok r ∧ d.deadLetterDepth = r.dlq.length := by
  unfold queueDepths at h
  split at h
  · next main delayed dlq _ _ hdlq =>
      obtain rfl := Except.ok.inj h
      exact ⟨dlq, hdlq, rfl⟩
  all_goals cases h

theorem scrape_deadLetters {mode : String} {states : Nat → State} {outage : Nat → Option Exn}
    {d : QueueDepths} (h : (scrape mode states outage).queue = some (.ok d)) :
    d.deadLetterDepth = (states 11).redis.dlq.length := by
  have hqueue : (if lower mode = "queue" then some (queueDepths fun i =>
      match outage i with
      | some exc => .error exc
      | none => .ok (states (9 + i)).redis) else none) = some (.ok d) := h
  split at hqueue
  · obtain ⟨r, hr, hd⟩ := queueDepths_ok (Option.some.inj hqueue)
    split at hr
    · cases hr
    · rw [hd, ← Except.ok.inj hr]
  · cases hqueue

/-- From one scrape to the next no counter decreases, whatever the platform does in between and
    while they run: only what an agent reports must not be negative. -/
theorem counters_never_decrease {mode : String} {states states' : Nat → State}
    {outage outage' : Nat → Option Exn}
    (hreach : ∀ i, (queueMode cfg).Reachable Reports (states i))
    (hpath : ∀ i, (queueMode cfg).Path Reports (states i) (states' i)) :
    (scrape mode states outage).Le (scrape mode states' outage') := by
  have hkeep : ∀ i, (states i).db.KeepsBills (states' i).db := fun i =>
    path_keepsBills (hreach i) (hpath i)
  have hbills : ∀ i, ∀ t ∈ (states i).db.tasks, t.BillOk := fun i => (reachable_billsOk (hreach i)).task
  have hnonneg : ∀ i, ∀ t ∈ (states' i).db.tasks, t.NonNeg := fun i =>
    (reachable_nonNegative ((hreach i).path (hpath i))).task
  constructor
  case executions =>
    show ((groupCounts _ _).map _).sum ≤ ((groupCounts _ _).map _).sum
    rw [sum_groupCounts, sum_groupCounts, ← List.countP_true]
    exact (hkeep 0).count_executions_le fun _ _ _ _ => rfl
  case tasks =>
    show ((groupCounts _ _).map _).sum ≤ ((groupCounts _ _).map _).sum
    rw [sum_groupCounts, sum_groupCounts, ← List.countP_true]
    exact (hkeep 1).count_tasks_le fun _ _ _ _ => rfl
  case finished =>
    show ((byStatus _ _).lookup _).getD 0 + ((byStatus _ _).lookup _).getD 0 ≤
      ((byStatus _ _).lookup _).getD 0 + ((byStatus _ _).lookup _).getD 0
    rw [lookup_byStatus _ _ (by decide), lookup_byStatus _ _ (by decide),
      lookup_byStatus _ _ (by decide), lookup_byStatus _ _ (by decide), countP_terminal,
      countP_terminal]
    exact (hkeep 0).count_executions_le fun _ _ hstays => hstays
  case completed =>
    show ((byStatus _ _).lookup _).getD 0 ≤ ((byStatus _ _).lookup _).getD 0
    rw [lookup_byStatus _ _ (by decide), lookup_byStatus _ _ (by decide)]
    refine (hkeep 1).count_tasks_le fun t t' hle hs => ?_
    exact decide_eq_true (hle.completed (of_decide_eq_true hs)).1
  case failed =>
    show ((byStatus _ _).lookup _).getD 0 ≤ ((byStatus _ _).lookup _).getD 0
    rw [lookup_byStatus _ _ (by decide), lookup_byStatus _ _ (by decide)]
    refine (hkeep 1).count_tasks_le fun t t' hle hs => ?_
    exact decide_eq_true (hle.failed (of_decide_eq_true hs))
  case totalTokens =>
    show sqlSum _ _ ≤ sqlSum _ _
    rw [sqlSum_eq, sqlSum_eq]
    refine (hkeep 2).sum_le (hbills 2) (fun t t' h => ?_) (fun t h => ?_)
      fun t ht => (hnonneg 2 t ht).totalTokens
    · exact congrArg (fun b => b.2.1.getD 0) h
    · exact congrArg (fun b => b.2.1.getD 0) h
  case totalCostUsd =>
    refine Double.roundTo_mono 6 (Double.round_mono ?_)
    rw [sqlSum_eq, sqlSum_eq]
    refine (hkeep 3).sum_le (hbills 3) (fun t t' h => ?_) (fun t h => ?_)
      fun t ht => (hnonneg 3 t ht).costUsd
    · exact congrArg (fun b => b.2.2.1.getD 0) h
    · exact congrArg (fun b => b.2.2.1.getD 0) h
  case totalCalls =>
    show sqlSum _ _ ≤ sqlSum _ _
    rw [sqlSum_eq, sqlSum_eq]
    refine (hkeep 4).sum_le (hbills 4) (fun t t' h => ?_) (fun t h => ?_)
      fun t ht => (hnonneg 4 t ht).toolCalls
    · exact congrArg (fun b => b.2.2.2) h
    · exact congrArg (fun b => b.2.2.2) h
  case executionMax =>
    intro n hmax
    refine sqlMax_le (fun x hx d hd => ?_) hmax
    have hbill : x.bill ≠ (none, none, none) := fun h => by
      have hnone : x.durationMs = none := congrArg (·.1) h
      rw [hd] at hnone
      cases hnone
    obtain ⟨tasks, hb⟩ := ((reachable_billsOk (hreach 8)).execution x hx).resolve_left hbill
    obtain ⟨x', hx', -, hstays⟩ := (hkeep 8).execution x hx
    exact ⟨x', hx', (congrArg (·.1) (hstays hb.terminal).2).trans hd⟩
  case taskMax =>
    intro n hmax
    refine sqlMax_le (fun t ht d hd => ?_) hmax
    have hs : t.status = .completed := by
      by_contra hne
      have hnone : t.durationMs = none := congrArg (·.1) (hbills 6 t ht hne)
      rw [hd] at hnone
      cases hnone
    obtain ⟨t', ht', -, hkept⟩ := (hkeep 6).task t ht
    exact ⟨t', ht', (congrArg (·.1) (hkept hs)).trans hd⟩
  case deadLetters =>
    intro d d' hd hd'
    rw [scrape_deadLetters hd, scrape_deadLetters hd']
    exact (hreach 11).stable (R := fun s s' => s.redis.dlq.length ≤ s'.redis.dlq.length)
      (Nat.le_refl _) (fun _ _ _ _ hle _ hs => Nat.le_trans hle (dlq_length_step hs)) (hpath 11)

/-- A scrape before the agent of `failedRunSchedule` reports, and one at its end. -/
theorem counters_never_decrease_failed :
    ∃ s s', (queueMode (fallbackConfig { taskMaxRetries := 0 })).Path Reports s s' ∧
      (scrape "queue" (fun _ => s) fun _ => none).totalTokens = 0 ∧
      (scrape "queue" (fun _ => s') fun _ => none).totalTokens = 7 ∧
      (scrape "queue" (fun _ => s) fun _ => none).Le (scrape "queue" (fun _ => s') fun _ => none) := by
  obtain ⟨trace, s', hrun, hcheck⟩ := (queueMode (fallbackConfig { taskMaxRetries := 0 })).exists_run
    (E := Reports) (fun _ ev => ev.reportsUsage)
    (fun trace s' => (trace.any fun p => (scrape "queue" (fun _ => p.1) fun _ => none).totalTokens = 0) &&
      (scrape "queue" (fun _ => s') fun _ => none).totalTokens = 7)
    failedRunSchedule (fun _ _ h => h) (by decide +kernel)
  obtain ⟨⟨⟨s, ev⟩, hmem, hzero⟩, hseven⟩ :
      (∃ p ∈ trace, (scrape "queue" (fun _ => p.1) fun _ => none).totalTokens = 0) ∧
        (scrape "queue" (fun _ => s') fun _ => none).totalTokens = 7 := by
    simpa using hcheck
  have hpath := hrun.path_of_mem hmem
  exact ⟨s, s', hpath, hzero, hseven,
    counters_never_decrease (fun _ => (hrun.mem_trace hmem).1) fun _ => hpath⟩

/-! ## Totals -/

/-- The tokens of all tasks, execution by execution. -/
theorem tokens_by_execution {db : Db} (hwf : db.WellFormed) :
    sqlSum Task.totalTokens db.tasks.rows =
      (db.executions.rows.map fun x => sumTokens (db.tasksOf x.id)).sum := by
  have hkeys : ∀ t ∈ db.tasks.rows, t.executionId ∈ db.executions.rows.map Execution.id := by
    intro t ht
    obtain ⟨x, hx, hid⟩ := hwf.owner t ht
    exact List.mem_map.2 ⟨x, hx, hid⟩
  have hgroups := Sums.sum_groups (f := fun t : Task => t.totalTokens.getD 0) db.executions.nodup hkeys
  rw [List.map_map] at hgroups
  rw [sqlSum_eq, ← hgroups]
  rfl

/-- A scrape adds up: every row is counted under one status, and the tokens are what the finished
    executions were billed, and for every other execution what its tasks used so far. -/
theorem metrics_balance {E : State → Event → Prop} {mode : String} {states : Nat → State}
    {outage : Nat → Option Exn} (h : ∀ i, (queueMode cfg).Reachable E (states i)) :
    ((scrape mode states outage).executionsByStatus.map Prod.snd).sum =
        (scrape mode states outage).executionsTotal ∧
      ((scrape mode states outage).tasksByStatus.map Prod.snd).sum =
        (scrape mode states outage).tasksTotal ∧
      (scrape mode states outage).totalTokens = ((states 2).db.executions.rows.map fun x =>
        x.totalTokens.getD (sumTokens ((states 2).db.tasksOf x.id))).sum := by
  refine ⟨?_, ?_, ?_⟩
  · show ((byStatus _ _).map _).sum = ((groupCounts _ _).map _).sum
    rw [sum_groupCounts]
    exact sum_byStatus (by decide) (fun k => by cases k <;> decide) _ _
  · show ((byStatus _ _).map _).sum = ((groupCounts _ _).map _).sum
    rw [sum_groupCounts]
    exact sum_byStatus (by decide) (fun k => by cases k <;> decide) _ _
  · refine (tokens_by_execution (reachable_inv (h 2)).wellFormed).trans ?_
    refine congrArg List.sum (List.map_congr_left fun x hx => ?_)
    have hbills := reachable_billsOk (h 2)
    rcases hbills.execution x hx with hnone | ⟨tasks, hb⟩
    · have htokens : x.totalTokens = none := congrArg (·.2.1) hnone
      rw [htokens, Option.getD_none]
    · rw [(hb.totals_eq hbills.task).1, Option.getD_some]

theorem metrics_balance_failed :
    ∃ s, (queueMode (fallbackConfig { taskMaxRetries := 0 })).Reachable anyEvent s ∧
      s.db.executions.rows.map Execution.totalTokens = [some 7] ∧
      (scrape "queue" (fun _ => s) fun _ => none).totalTokens = 7 := by
  obtain ⟨s, hreach, hcheck⟩ := (queueMode (fallbackConfig { taskMaxRetries := 0 })).exists_reachable
    (E := anyEvent) (fun _ _ => true)
    (fun s => s.db.executions.rows.map Execution.totalTokens = [some 7])
    failedRunSchedule (fun _ _ _ => trivial) (by decide +kernel)
  have hbilled : s.db.executions.rows.map Execution.totalTokens = [some 7] := by simpa using hcheck
  refine ⟨s, hreach, hbilled, ?_⟩
  have htotal : (scrape "queue" (fun _ => s) fun _ => none).totalTokens =
      (s.db.executions.rows.map fun x => x.totalTokens.getD (sumTokens (s.db.tasksOf x.id))).sum :=
    (metrics_balance fun _ => hreach).2.2
  obtain ⟨x, hx⟩ : ∃ x, s.db.executions.rows = [x] :=
    List.length_eq_one_iff.1 (by simpa using congrArg List.length hbilled)
  rw [htotal, hx]
  rw [hx, List.map_singleton, List.singleton_inj] at hbilled
  simp [hbilled]

end AgenticExecution
