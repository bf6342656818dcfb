import AgenticExecution.Executions

set_option autoImplicit false

/-! # Completed executions

What a COMPLETED execution records. `_finalize` works from its own read of the task rows; the read
was complete and every row in it COMPLETED, and such rows never change in what the aggregate uses.
So the recorded aggregate is the one of the current rows, in every later state. -/

namespace AgenticExecution

variable {cfg : Config} {s s' : State} {ev : Event}

/-! ## The aggregate of the current rows -/

/-- The outcomes of the tasks of an execution by increasing `order_index`. -/
def Db.outcomes (db : Db) (e : ExecutionId) : List TaskOutcome :=
  (sortByIndex (db.tasksOf e)).map fun t => t.outcome (db.results.find? t.id)

/-- `x` records the aggregate of a finished read of its tasks. -/
def Db.Sealed (db : Db) (x : Execution) : Prop :=
  ∃ tasks outcomes, db.Finished x tasks ∧ List.Forall₂ db.IsOutcome (sortByIndex tasks) outcomes ∧
    x.finalResult = some (aggregate x.userRequest outcomes) ∧
    x.totalTokens = some (sumTokens tasks)

theorem Db.Sealed.mono {db db' : Db} (h : db.Le db') {x : Execution} (hx : db.Sealed x) :
    db'.Sealed x := by
  obtain ⟨tasks, outcomes, hf, hout, hres, htok⟩ := hx
  exact ⟨tasks, outcomes, hf.mono h, hout.imp fun _ _ ho => ho.mono h, hres, htok⟩

/-- The rows of a sealed execution are COMPLETED. -/
theorem Db.Sealed.task {db : Db} {x : Execution} (h : db.Sealed x) {t : Task} (ht : t ∈ db.tasks)
    (he : t.executionId = x.id) : t.status = .completed := by
  obtain ⟨tasks, outcomes, hf, -⟩ := h
  obtain ⟨u, hu, hle⟩ := hf.loaded.complete t ht he
  exact (hle.completed (hf.completed u hu)).1

theorem Db.Sealed.planned {db : Db} {x : Execution} (h : db.Sealed x) : db.Planned x.id := by
  obtain ⟨tasks, outcomes, hf, -⟩ := h
  exact hf.planned

instance : IsTrans Task fun t t' => t.orderIndex ≤ t'.orderIndex :=
  ⟨fun _ _ _ => Int.le_trans⟩

instance : Std.Total fun t t' : Task => t.orderIndex ≤ t'.orderIndex :=
  ⟨fun t t' => Int.le_total t.orderIndex t'.orderIndex⟩

/-- Rows with different positions have one sorted order. -/
theorem sortByIndex_perm {l l' : List Task} (hp : l.Perm l')
    (hinj : ∀ t ∈ l, ∀ t' ∈ l, t.orderIndex = t'.orderIndex → t = t') :
    sortByIndex l = sortByIndex l' := by
  have hl := List.perm_insertionSort (fun t t' : Task => t.orderIndex ≤ t'.orderIndex) l
  have hl' := List.perm_insertionSort (fun t t' : Task => t.orderIndex ≤ t'.orderIndex) l'
  refine List.Perm.eq_of_pairwise ?_ (List.pairwise_insertionSort _ l)
    (List.pairwise_insertionSort _ l') (hl.trans (hp.trans hl'.symm))
  intro t t' ht ht' hle hle'
  exact hinj t (hl.mem_iff.1 ht) t' (hp.mem_iff.2 (hl'.mem_iff.1 ht')) (Int.le_antisymm hle hle')

/-- The current row of a row read before. -/
def Db.current (db : Db) (t : Task) : Task := (db.tasks.find? t.id).getD t

theorem Db.Read.current {db : Db} {t : Task} (h : db.Read t) :
    db.current t ∈ db.tasks ∧ Task.Le t (db.current t) := by
  obtain ⟨u, hu, hle⟩ := h
  rw [Db.current, Table.find?_eq_some_iff.2 ⟨hu, hle.id⟩]
  exact ⟨hu, hle⟩

/-- A complete read lists the current rows, up to order. -/
theorem Db.Loaded.perm {db : Db} {e : ExecutionId} {rows : List Task} (h : db.Loaded e rows) :
    (rows.map db.current).Perm (db.tasksOf e) := by
  have hid : (rows.map db.current).map Task.id = rows.map Task.id := by
    rw [List.map_map]
    exact List.map_congr_left fun t ht => (h.read t ht).2.current.2.id
  refine (List.perm_ext_iff_of_nodup ?_ ?_).2 fun u => ⟨fun hu => ?_, fun hu => ?_⟩
  · exact List.Nodup.of_map Task.id (hid ▸ h.nodup)
  · exact List.Nodup.of_map Task.id (db.tasksOf_nodup e)
  · obtain ⟨t, ht, rfl⟩ := List.mem_map.1 hu
    obtain ⟨he, hread⟩ := h.read t ht
    obtain ⟨hmem, hle⟩ := hread.current
    exact Db.mem_tasksOf.2 ⟨hmem, hle.executionId.trans he⟩
  · obtain ⟨hmem, he⟩ := Db.mem_tasksOf.1 hu
    obtain ⟨t, ht, hle⟩ := h.complete u hmem he
    refine List.mem_map.2 ⟨t, ht, ?_⟩
    obtain ⟨hcur, hle'⟩ := (h.read t ht).2.current
    exact Table.eq_of_key_eq hcur hmem (hle'.id.trans hle.id.symm)

/-- The outcomes of a finished read are the outcomes of the current rows. -/
theorem Db.Finished.outcomes_eq {db : Db} (hwf : db.WellFormed) {x : Execution}
    {tasks : List Task} {outcomes : List TaskOutcome} (h : db.Finished x tasks)
    (hout : List.Forall₂ db.IsOutcome (sortByIndex tasks) outcomes) :
    outcomes = db.outcomes x.id := by
  have hread : ∀ t ∈ tasks, Task.Le t (db.current t) := fun t ht =>
    (h.loaded.read t ht).2.current.2
  have hsorted : (sortByIndex tasks).map db.current = sortByIndex (db.tasksOf x.id) := by
    have hmap : (sortByIndex tasks).map db.current = sortByIndex (tasks.map db.current) :=
      List.map_insertionSort _ _ db.current tasks fun t ht t' ht' => by
        rw [(hread t ht).orderIndex, (hread t' ht').orderIndex]
    rw [hmap]
    refine sortByIndex_perm h.loaded.perm fun u hu u' hu' hi => ?_
    obtain ⟨hmem, he⟩ := Db.mem_tasksOf.1 (h.loaded.perm.mem_iff.1 hu)
    obtain ⟨hmem', he'⟩ := Db.mem_tasksOf.1 (h.loaded.perm.mem_iff.1 hu')
    exact hwf.index u hmem u' hmem' (he.trans he'.symm) hi
  have hmem : ∀ t ∈ sortByIndex tasks, t ∈ tasks := fun t ht =>
    (List.perm_insertionSort _ tasks).mem_iff.1 ht
  have hboth : List.Forall₂ (fun t o => t ∈ tasks ∧ db.IsOutcome t o) (sortByIndex tasks) outcomes :=
    (List.forall₂_and_left _ _).2 ⟨hmem, hout⟩
  have hpoint : List.Forall₂ (fun t o => (db.current t).outcome (db.results.find? t.id) = o)
      (sortByIndex tasks) outcomes := by
    refine hboth.imp ?_
    rintro t o ⟨ht, r, hr, hid, rfl⟩
    have hle := hread t ht
    have hs := h.completed t ht
    rw [Table.find?_eq_some_iff.2 ⟨hr, hid⟩, Task.outcome, Task.outcome, hle.agentType,
      hle.description, (hle.completed hs).1, hs]
  have hmap := List.forall₂_map_left_iff.2 hpoint
  rw [List.forall₂_eq_eq_eq] at hmap
  rw [Db.outcomes, ← hsorted, List.map_map, ← hmap]
  refine List.map_congr_left fun t ht => ?_
  rw [Function.comp_apply, (hread t (hmem t ht)).id]

/-- The tokens of a finished read are the tokens of the current rows. -/
theorem Db.Finished.sumTokens_eq {db : Db} {x : Execution} {tasks : List Task}
    (h : db.Finished x tasks) : sumTokens tasks = sumTokens (db.tasksOf x.id) := by
  have hcongr : sumTokens tasks = sumTokens (tasks.map db.current) := by
    rw [sumTokens, sumTokens, List.map_map]
    refine congrArg List.sum (List.map_congr_left fun t ht => ?_)
    have hle := (h.loaded.read t ht).2.current.2
    rw [Function.comp_apply, (hle.completed (h.completed t ht)).2.1]
  rw [hcongr]
  exact (h.loaded.perm.map _).sum_eq

/-! ## Every COMPLETED execution is sealed -/

/-- Every COMPLETED execution records the aggregate of a finished read. -/
def Db.AllSealed (db : Db) : Prop :=
  ∀ x ∈ db.executions, x.status = .completed → db.Sealed x

/-- An update that leaves COMPLETED rows and what they record alone keeps them sealed. -/
theorem Db.AllSealed.updateExecution {db : Db} (h : db.AllSealed) {now : Time} {e : ExecutionId}
    {u : ExecutionUpdate} (ha : db.Respects (.updateExecution e u))
    (hu : ∀ x ∈ db.executions, x.id = e → u.guard x = true → (u.set now x).status = .completed →
      db.Sealed (u.set now x)) :
    (db.updateExecution now e u).AllSealed := by
  intro x' hx' hs
  obtain ⟨x, hx, rfl⟩ := Db.mem_updateExecution.1 hx'
  have hle : db.Le (db.updateExecution now e u) := Db.le_updateExecution ha
  split at hs
  · next hg =>
      rw [if_pos hg]
      exact (hu x hx hg.1 hg.2 hs).mono hle
  · next hg =>
      rw [if_neg hg]
      exact (h x hx hs).mono hle

theorem Db.AllSealed.commit {o : Oracle} {db : Db} {pc : Pc} {τ : Txn} {k : Nat → Pc}
    (h : db.AllSealed) (hk : pc.Knows db) (ha : db.Respects τ) (hcommit : pc.Commits cfg o db τ k) :
    (db.commit o.now τ).AllSealed := by
  have hle : db.Le (db.commit o.now τ) := Db.le_commit ha
  cases hcommit with
  | planGuard | planRunning | planFail | finalizeFail =>
      exact h.updateExecution ha (by simp [ExecutionUpdate.set])
  | planStarted e =>
      refine h.updateExecution ha fun x hx _ _ hs => ?_
      obtain ⟨tasks, outcomes, hf, hout, hres, htok⟩ := h x hx hs
      exact ⟨tasks, outcomes, ⟨hf.planned, hf.requested, hf.loaded, hf.completed⟩, hout, hres, htok⟩
  | finalizeComplete x₀ k tasks outcomes =>
      obtain ⟨hf, hout, -⟩ := hk
      refine h.updateExecution ha fun x hx hid _ _ => ?_
      have hreq : x.userRequest = x₀.userRequest := by
        obtain ⟨y, hy, hyid, hyreq⟩ := hf.requested
        rw [Table.eq_of_key_eq hx hy (hid.trans hyid.symm), hyreq]
      refine ⟨tasks, outcomes, ?_, hout, ?_, rfl⟩
      · have : db.Finished { x₀ with userRequest := x.userRequest } tasks := by
          rw [hreq]
          exact hf
        exact ⟨hid ▸ this.planned, hid ▸ this.requested, hid ▸ this.loaded, this.completed⟩
      · simp only [ExecutionUpdate.set, hreq]
  | _ => exact fun x hx hs => (h x hx hs).mono hle

theorem allSealed_step (hinv : Inv s) (h : s.db.AllSealed) (hs : s.step cfg ev = some s') :
    s'.db.AllSealed := by
  cases State.stepsTo hs with
  | createExecution userRequest now =>
      intro x hx hst
      rcases State.mem_createExecution.1 hx with hx | rfl
      · exact (h x hx hst).mono (State.createExecution_le userRequest now)
      · cases hst
  | commit hid o pc τ k hpc hlive hact =>
      have hok : (Act.commit τ k).Ok o.now s.db s.redis := hact ▸ hinv.act_ok hpc
      exact h.commit (hinv.knows pc (List.mem_of_getElem? hpc)) hok.allowed.respects
        (Pc.commits_of_act hact)
  | dequeue | promoteDue | recoverStaleTasks | move | send | redeliver | raise | crash => exact h

theorem reachable_allSealed {E : State → Event → Prop} (h : (queueMode cfg).Reachable E s) :
    s.db.AllSealed :=
  h.invariant (I := fun s => s.db.AllSealed) (by simp [Db.AllSealed, queueMode])
    fun _ _ _ hr hi _ hs => allSealed_step (reachable_inv hr) hi hs

/-! ## One finalizer -/

/-- The event is the UPDATE of a finalizer that sets execution `e` COMPLETED, and it hits the row. -/
def completes (cfg : Config) (e : ExecutionId) (p : State × Event) : Bool :=
  match p.2 with
  | .run hid o =>
    match p.1.live? hid with
    | some (.finalizeComplete x k tasks outcomes) =>
      match (Pc.finalizeComplete x k tasks outcomes).act cfg o p.1.db p.1.redis with
      | .commit τ _ => x.id = e && p.1.db.rowcount τ ≠ 0
      | _ => false
    | _ => false
  | _ => false

theorem completes_iff {e : ExecutionId} :
    completes cfg e (s, ev) = true ↔ ∃ hid o x k tasks outcomes, ev = .run hid o ∧
      s.live? hid = some (.finalizeComplete x k tasks outcomes) ∧ x.id = e ∧
      ∃ y ∈ s.db.executions, y.id = e ∧ y.status = .running := by
  unfold completes
  constructor
  · intro h
    split at h
    · next hid o hrun =>
        split at h
        · next x k tasks outcomes hlive =>
            obtain ⟨he, hhits⟩ : x.id = e ∧ _ ≠ 0 := by simpa [Pc.act] using h
            obtain ⟨y, hy, hid', hguard⟩ := Table.rowcount_pos_iff.1 (Nat.pos_of_ne_zero hhits)
            exact ⟨hid, o, x, k, tasks, outcomes, hrun, hlive, he, y, hy, hid'.trans he,
              of_decide_eq_true hguard⟩
        · cases h
    · cases h
  · rintro ⟨hid, o, x, k, tasks, outcomes, rfl, hlive, rfl, y, hy, hid', hst⟩
    have hhits : 0 < s.db.executions.rowcount x.id (fun y => decide (y.status = .running)) :=
      Table.rowcount_pos_iff.2 ⟨y, hy, hid', decide_eq_true hst⟩
    dsimp only
    rw [hlive]
    show (decide (x.id = x.id) &&
      decide (s.db.executions.rowcount x.id (fun y => decide (y.status = .running)) ≠ 0)) = true
    simp [hhits.ne']

/-- After a completing commit the execution is finished. -/
theorem completes_terminal {e : ExecutionId} (h : completes cfg e (s, ev) = true)
    (hs : s.step cfg ev = some s') :
    ∃ x ∈ s'.db.executions, x.id = e ∧ x.status.isTerminal = true := by
  obtain ⟨hid, o, x₀, k, tasks, outcomes, rfl, hlive, he, x, hx, hxid, hst⟩ := completes_iff.1 h
  obtain rfl := Option.some.inj ((congrArg (Option.map _) hlive).symm.trans hs)
  refine ⟨_, Table.update_mem (ExecutionUpdate.set_id _ _) hx, ?_⟩
  rw [if_pos ⟨hxid.trans he.symm, by simp [ExecutionUpdate.guard, hst]⟩]
  exact ⟨hxid, rfl⟩

/-- The completing commits of an execution in a run: at most one, after which it is finished. -/
theorem run_completes {E : State → Event → Prop} {trace : List (State × Event)} (e : ExecutionId)
    (h : (queueMode cfg).Run E trace s) :
    trace.countP (completes cfg e) ≤ 1 ∧ (0 < trace.countP (completes cfg e) →
      ∃ x ∈ s.db.executions, x.id = e ∧ x.status.isTerminal = true) := by
  refine Lts.Run.invariant (I := fun trace s => trace.countP (completes cfg e) ≤ 1 ∧
    (0 < trace.countP (completes cfg e) →
      ∃ x ∈ s.db.executions, x.id = e ∧ x.status.isTerminal = true)) (by simp) ?_ h
  intro trace s ev s' hrun ⟨hone, hterm⟩ _ hs
  rw [List.countP_append, List.countP_singleton]
  split
  · next hc =>
      have hzero : trace.countP (completes cfg e) = 0 := by
        by_contra hne
        obtain ⟨x, hx, hid, hst⟩ := hterm (Nat.pos_of_ne_zero hne)
        obtain ⟨-, -, -, -, -, -, -, -, -, y, hy, hid', hst'⟩ := completes_iff.1 hc
        rw [Table.eq_of_key_eq hx hy (hid.trans hid'.symm), hst'] at hst
        cases hst
      exact ⟨by omega, fun _ => completes_terminal hc hs⟩
  · refine ⟨hone, fun hpos => ?_⟩
    obtain ⟨x, hx, hid, hst⟩ := hterm hpos
    obtain ⟨x', hx', hid', hst'⟩ := terminal_step hs hx hst
    exact ⟨x', hx', hid'.trans hid, hst'⟩

/-! ## The record -/

theorem exists_pairs {α β : Type} {P : α → β → Prop} {l : List α} (h : ∀ a ∈ l, ∃ b, P a b) :
    ∃ pairs : List (α × β), pairs.map Prod.fst = l ∧ ∀ p ∈ pairs, P p.1 p.2 := by
  induction l with
  | nil => exact ⟨[], rfl, by simp⟩
  | cons a l ih =>
      obtain ⟨b, hb⟩ := h a List.mem_cons_self
      obtain ⟨pairs, hfst, hpairs⟩ := ih fun c hc => h c (List.mem_cons_of_mem a hc)
      refine ⟨(a, b) :: pairs, by rw [List.map_cons, hfst], ?_⟩
      rintro p (_ | ⟨_, hp⟩)
      · exact hb
      · exact hpairs p hp

/-- The tasks of an execution by increasing `order_index`, each with its stored result. -/
structure Db.Delivered (db : Db) (e : ExecutionId) (rows : List (Task × TaskResult)) : Prop where
  sorted : (rows.map fun p => p.1.orderIndex).Pairwise (· < ·)
  tasks : ∀ t, t ∈ rows.map Prod.fst ↔ t ∈ db.tasks ∧ t.executionId = e
  results : ∀ p ∈ rows, p.2 ∈ db.results ∧ p.2.taskId = p.1.id

theorem Db.Delivered.exists {db : Db} (hwf : db.WellFormed) {e : ExecutionId}
    (hstored : ∀ t ∈ db.tasks, t.executionId = e → db.Stored t.id) :
    ∃ rows, db.Delivered e rows ∧ rows.map Prod.fst = sortByIndex (db.tasksOf e) := by
  have hperm := List.perm_insertionSort (fun t t' : Task => t.orderIndex ≤ t'.orderIndex) (db.tasksOf e)
  have hmem : ∀ t, t ∈ sortByIndex (db.tasksOf e) ↔ t ∈ db.tasks ∧ t.executionId = e := fun t =>
    hperm.mem_iff.trans Db.mem_tasksOf
  have hresult : ∀ t ∈ sortByIndex (db.tasksOf e), ∃ r, r ∈ db.results ∧ r.taskId = t.id := by
    intro t ht
    obtain ⟨ht, he⟩ := (hmem t).1 ht
    exact hstored t ht he
  obtain ⟨rows, hfst, hresults⟩ := exists_pairs hresult
  refine ⟨rows, ?_, hfst⟩
  constructor
  case sorted =>
    have hle := List.pairwise_insertionSort (fun t t' : Task => t.orderIndex ≤ t'.orderIndex)
      (db.tasksOf e)
    have hne : (sortByIndex (db.tasksOf e)).Pairwise (· ≠ ·) :=
      hperm.nodup_iff.2 (List.Nodup.of_map Task.id (db.tasksOf_nodup e))
    have hrows : rows.map (fun p => p.1.orderIndex) =
        (sortByIndex (db.tasksOf e)).map Task.orderIndex := by
      rw [← hfst, List.map_map]
      rfl
    rw [hrows, List.pairwise_map]
    refine (hle.and hne).imp_of_mem fun {t t'} ht ht' h => h.1.lt_of_ne fun hindex => h.2 ?_
    exact hwf.index t ((hmem t).1 ht).1 t' ((hmem t').1 ht').1
      (((hmem t).1 ht).2.trans ((hmem t').1 ht').2.symm) hindex
  case tasks => exact fun t => hfst ▸ hmem t
  case results => exact hresults

theorem Db.Delivered.nodup {db : Db} {e : ExecutionId} {rows : List (Task × TaskResult)}
    (h : db.Delivered e rows) : (rows.map Prod.fst).Nodup := by
  refine List.Nodup.of_map Task.orderIndex ?_
  rw [List.map_map]
  exact h.sorted.imp fun hlt => hlt.ne

/-- A COMPLETED execution has tasks, all of them COMPLETED with exactly one result, and records
    their aggregate and their tokens; and at most one finalizer ever completed it. -/
theorem completed_execution_sound {E : State → Event → Prop} {trace : List (State × Event)}
    (h : (queueMode cfg).Run E trace s) :
    (∀ x ∈ s.db.executions, x.status = .completed →
      (∃ t ∈ s.db.tasks, t.executionId = x.id) ∧
      (∀ t ∈ s.db.tasks, t.executionId = x.id →
        t.status = .completed ∧ ∃! r, r ∈ s.db.results ∧ r.taskId = t.id) ∧
      ∃ rows, s.db.Delivered x.id rows ∧
        x.finalResult = some (aggregate x.userRequest (rows.map fun p =>
          { agentType := p.1.agentType, description := p.1.description, status := p.1.status,
            output := p.2.output })) ∧
        x.totalTokens = some (rows.map fun p => p.1.totalTokens.getD 0).sum) ∧
    ∀ e, trace.countP (completes cfg e) ≤ 1 := by
  refine ⟨fun x hx hs => ?_, fun e => (run_completes e h).1⟩
  have hwf := (reachable_inv h.reachable).wellFormed
  have hsealed := reachable_allSealed h.reachable x hx hs
  have hcompleted : ∀ t ∈ s.db.tasks, t.executionId = x.id → t.status = .completed :=
    fun _ ht he => hsealed.task ht he
  have hstored : ∀ t ∈ s.db.tasks, t.executionId = x.id → s.db.Stored t.id := fun t ht he =>
    (hwf.rows t ht).stored (hcompleted t ht he)
  obtain ⟨tasks, outcomes, hf, hout, hres, htok⟩ := hsealed
  obtain ⟨rows, hdelivered, hrows⟩ := Db.Delivered.exists hwf hstored
  refine ⟨hf.planned, fun t ht he => ?_, rows, hdelivered, ?_, ?_⟩
  · obtain ⟨r, hr, hid⟩ := hstored t ht he
    refine ⟨hcompleted t ht he, r, ⟨hr, hid⟩, ?_⟩
    rintro r' ⟨hr', hid'⟩
    exact Table.eq_of_key_eq hr' hr (hid'.trans hid.symm)
  · rw [hres, hf.outcomes_eq hwf hout, Db.outcomes, ← hrows, List.map_map]
    refine congrArg (fun outcomes => some (aggregate x.userRequest outcomes)) ?_
    refine List.map_congr_left fun p hp => ?_
    rw [Function.comp_apply, Table.find?_eq_some_iff.2 (hdelivered.results p hp)]
    rfl
  · have hperm := List.perm_insertionSort (fun t t' : Task => t.orderIndex ≤ t'.orderIndex)
      (s.db.tasksOf x.id)
    rw [htok, hf.sumTokens_eq, sumTokens, ← (hperm.map _).sum_eq]
    change some ((sortByIndex (s.db.tasksOf x.id)).map fun t => t.totalTokens.getD 0).sum = _
    rw [← hrows, List.map_map]
    rfl

theorem completed_execution_sound_fallback :
    ∃ trace s, (queueMode (fallbackConfig {})).Run anyEvent trace s ∧
      (∃ x ∈ s.db.executions, x.status = .completed ∧
        ∃ rows, rows.length = 3 ∧ s.db.Delivered x.id rows) ∧
      trace.countP (completes (fallbackConfig {}) 1) = 1 := by
  obtain ⟨trace, s, hrun, hcheck⟩ := (queueMode (fallbackConfig {})).exists_run (E := anyEvent)
    (fun _ _ => true)
    (fun trace s => (s.db.executions.rows.any fun x => x.status = .completed ∧
        (s.db.tasksOf x.id).length = 3) &&
      trace.countP (completes (fallbackConfig {}) 1) = 1)
    completionSchedule (fun _ _ _ => trivial) (by decide +kernel)
  obtain ⟨⟨x, hx, hs, hlength⟩, hone⟩ : (∃ x ∈ s.db.executions.rows, x.status = .completed ∧
      (s.db.tasksOf x.id).length = 3) ∧ trace.countP (completes (fallbackConfig {}) 1) = 1 := by
    simpa using hcheck
  obtain ⟨-, -, rows, hdelivered, -⟩ := (completed_execution_sound hrun).1 x hx hs
  have hperm : (rows.map Prod.fst).Perm (s.db.tasksOf x.id) :=
    (List.perm_ext_iff_of_nodup hdelivered.nodup
      (List.Nodup.of_map Task.id (s.db.tasksOf_nodup x.id))).2
      fun t => (hdelivered.tasks t).trans Db.mem_tasksOf.symm
  have hrows : rows.length = 3 := by
    rw [← List.length_map Prod.fst, hperm.length_eq, hlength]
  exact ⟨trace, s, hrun, ⟨x, hx, hs, rows, hrows, hdelivered⟩, hone⟩

end AgenticExecution
