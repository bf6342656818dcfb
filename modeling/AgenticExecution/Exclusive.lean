import AgenticExecution.Leases
import Mathlib.Data.List.Induction

set_option autoImplicit false

/-! # Exclusive claims

As long as the reaper does not take a task, the claim of its RUNNING row is a lock: whatever copies of
its job are delivered, raise, or stop, the only handler that works on it is the one with the latest
claim, and the next claim has to wait until that handler has handed the task back. -/

namespace AgenticExecution

variable {cfg : Config} {s s' : State} {ev : Event} {tid : TaskId} {trace : List (State × Event)}

/-- The reaper takes the task from the worker that holds it. -/
def reaps (cfg : Config) (tid : TaskId) (s : State) : Event → Bool
  | .run hid o =>
    match s.live? hid with
    | some (.retryOrFail _ _ (.recoverStaleTasks ..)) => releases cfg tid (s, .run hid o)
    | _ => false
  | _ => false

/-- The task goes from RUNNING to RETRYING. -/
def retries (cfg : Config) : TaskId → State × Event → Bool :=
  changes cfg (fun st => st = .running) fun st => st = .retrying

theorem reaps_of_releases {hid : Nat} {o : Oracle} {task : Task} {error : String} {e : ExecutionId}
    {stale : List Task} {affected : List ExecutionId}
    (hpc : s.handlers[hid]? = some (.retryOrFail task error (.recoverStaleTasks e stale affected)))
    (hrel : releases cfg tid (s, .run hid o) = true) : reaps cfg tid s (.run hid o) = true := by
  simpa [reaps, State.live?, hpc] using hrel

/-! ## Who ends a run -/

/-- A task stops RUNNING by the commit of a worker that is done with it then, unless it is released by
    the reaper. -/
theorem running_ends (hs : s.step cfg ev = some s') (hspared : reaps cfg tid s ev = false)
    {t t' : Task} (ht : t ∈ s.db.tasks) (hid : t.id = tid) (hrun : t.status = .running)
    (ht' : t' ∈ s'.db.tasks) (hid' : t'.id = tid) (hended : t'.status ≠ .running) :
    ∃ w o pc st pc', ev = .run w o ∧ s.handlers[w]? = some pc ∧ pc.work = some (tid, st) ∧
      s'.handlers[w]? = some pc' ∧ pc'.work = none := by
  subst hid
  cases State.stepsTo hs with
  | commit w o pc τ k hpc hlive hact =>
      have hcommit := Pc.commits_of_act hact
      have hnext : (s.handlers.set w (k (s.db.rowcount τ)))[w]? = some (k (s.db.rowcount τ)) :=
        List.getElem?_set_self (List.getElem?_eq_some_iff.1 hpc).1
      rcases Db.mem_commit ht' with ⟨hmem, -⟩ | ⟨t₀, ht₀, u, hu, hg, rfl⟩ | ⟨e, plan, i, sub, -, -, rfl⟩
      · obtain rfl := Table.eq_of_key_eq hmem ht hid'
        exact absurd hrun hended
      · obtain rfl := Table.eq_of_key_eq ht₀ ht ((u.set_id o.now t₀).symm.trans hid')
        cases hcommit with
        | taskStored task | persist task | persistUpdate task =>
            obtain ⟨htask, -⟩ := Prod.mk.inj (Option.some.inj hu)
            exact ⟨w, o, _, _, _, rfl, hpc, by rw [Pc.work, htask], hnext, rfl⟩
        | retryTask task error k' | failTask task error k' =>
            obtain ⟨htask, rfl⟩ := Prod.mk.inj (Option.some.inj hu)
            cases k' with
            | executeTask e =>
                refine ⟨w, o, _, _, _, rfl, hpc, by rw [Pc.work, htask], hnext, ?_⟩
                simp [Pc.work, ↓apply_ite Pc.work]
            | recoverStaleTasks e stale affected =>
                have hrel : releases cfg t₀.id (s, .run w o) = true :=
                  (changes_iff hs).2 ⟨⟨t₀, ht, rfl, by simp [hrun]⟩, _, ht', hid', by
                    simp [TaskUpdate.set]⟩
                rw [reaps_of_releases hpc hrel] at hspared
                cases hspared
        | taskClaim | taskStarted | markEnqueued | skipTask =>
            obtain ⟨-, rfl⟩ := Prod.mk.inj (Option.some.inj hu)
            simp_all [TaskUpdate.guard, TaskUpdate.set, TaskStatus.claimable]
        | _ => cases hu
      · exact absurd hid' (Db.plannedTask_id_ne ht e i sub)
  | createExecution | dequeue | promoteDue | recoverStaleTasks | move | send | redeliver | raise
    | crash =>
      obtain rfl := Table.eq_of_key_eq ht' ht hid'
      exact absurd hrun hended

/-! ## The lock -/

/-- The claim of a task the reaper leaves alone. -/
structure Exclusive (cfg : Config) (tid : TaskId) (trace : List (State × Event)) (s : State) :
    Prop where
  /-- Whoever works on the task has its latest claim. -/
  worker : ∀ (hid : Nat) (pc : Pc) (st : Stage), s.handlers[hid]? = some pc → pc.work = some (tid, st) →
    owner cfg tid trace = some hid
  /-- While somebody works on the task, it is RUNNING. -/
  running : ∀ (hid : Nat) (pc : Pc) (st : Stage), s.handlers[hid]? = some pc → pc.work = some (tid, st) →
    s.db.status? tid = some .running
  /-- After its latest claim the task is not claimable, or that claim's holder has handed it back. -/
  returned : ∀ pre u ev w mid, trace = pre ++ (u, ev) :: mid →
    claimant cfg tid (u, ev) = some w → (∀ p ∈ mid, claimant cfg tid p = none) →
      (∃ t ∈ s.db.tasks, t.id = tid ∧ t.status.claimable = false) ∨
        ∃ v o, (v, .run w o) ∈ mid ∧ retries cfg tid (v, .run w o) = true

/-- A claim starts from a claimable row and ends with a RUNNING one. -/
theorem claimant_rows {hid : Nat} (hs : s.step cfg ev = some s')
    (h : claimant cfg tid (s, ev) = some hid) :
    (∃ t ∈ s.db.tasks, t.id = tid ∧ t.status.claimable = true) ∧
      s'.db.status? tid = some .running := by
  obtain ⟨hrow, t', ht', hid', hst⟩ := (changes_iff hs).1 (claimant_eq_some h).2
  exact ⟨hrow, Db.status?_eq_some.2 ⟨t', ht', hid', by simpa using hst⟩⟩

/-- Nobody claims a task somebody works on. -/
theorem Exclusive.claimant_eq_none (h : Exclusive cfg tid trace s) (hs : s.step cfg ev = some s')
    {hid : Nat} {pc : Pc} {st : Stage} (hpc : s.handlers[hid]? = some pc)
    (hw : pc.work = some (tid, st)) : claimant cfg tid (s, ev) = none := by
  cases hclaim : claimant cfg tid (s, ev) with
  | none => rfl
  | some w =>
      obtain ⟨t, ht, hid', hst⟩ := (claimant_rows hs hclaim).1
      have hrun := h.running hid pc st hpc hw
      rw [← hid', Db.status?_of_mem ht, Option.some.injEq] at hrun
      simp [hrun, TaskStatus.claimable] at hst

/-- Unless its holder hands it back, a task that is not claimable stays so. -/
theorem Exclusive.retries_of_claimable (h : Exclusive cfg tid trace s)
    (hle : s.db.Le s'.db) (hs : s.step cfg ev = some s') (hspared : reaps cfg tid s ev = false)
    {t : Task} (ht : t ∈ s.db.tasks) (hid : t.id = tid) (hst : t.status.claimable = false) :
    (∃ t' ∈ s'.db.tasks, t'.id = tid ∧ t'.status.claimable = false) ∨
      ∃ w o, ev = .run w o ∧ owner cfg tid trace = some w ∧ retries cfg tid (s, ev) = true := by
  obtain ⟨t', ht', hle'⟩ := hle.task t ht
  have hid' : t'.id = tid := hle'.id.trans hid
  by_cases hclaimable : t'.status.claimable = false
  · exact .inl ⟨t', ht', hid', hclaimable⟩
  · have hrun : t.status = .running := by
      cases hold : t.status with
      | completed | failed =>
          rw [hle'.terminal (by simp [hold, TaskStatus.isTerminal])] at hclaimable
          exact absurd hst hclaimable
      | pending | retrying => simp [hold, TaskStatus.claimable] at hst
      | running => rfl
    have hretrying : t'.status = .retrying := by
      have hclaimed : t'.status ≠ .pending := hle'.claimed (by simp [hrun])
      cases hnew : t'.status <;> simp_all [TaskStatus.claimable]
    obtain ⟨w, o, pc, st, pc', rfl, hpc, hw, -, -⟩ :=
      running_ends hs hspared ht hid hrun ht' hid' (by simp [hretrying])
    refine .inr ⟨w, o, rfl, h.worker w pc st hpc hw, (changes_iff hs).2 ?_⟩
    exact ⟨⟨t, ht, hid, by simp [hrun]⟩, t', ht', hid', by simp [hretrying]⟩

/-- The owner in a history that ends without further claims. -/
theorem owner_of_claimant {pre mid : List (State × Event)} {p : State × Event} {w : Nat}
    (hclaim : claimant cfg tid p = some w) (hmid : ∀ q ∈ mid, claimant cfg tid q = none) :
    owner cfg tid (pre ++ p :: mid) = some w := by
  induction mid using List.reverseRecOn with
  | nil => rw [owner_snoc, hclaim, Option.some_or]
  | append_singleton mid q ih =>
      rw [show pre ++ p :: (mid ++ [q]) = (pre ++ p :: mid) ++ [q] by simp, owner_snoc,
        hmid q (by simp), Option.none_or]
      exact ih fun q' hq' => hmid q' (List.mem_append_left _ hq')

theorem Exclusive.step (hinv : Inv s) (h : Exclusive cfg tid trace s) (hs : s.step cfg ev = some s')
    (hspared : reaps cfg tid s ev = false) : Exclusive cfg tid (trace ++ [(s, ev)]) s' where
  worker hid pc st hpc hw := by
    rw [owner_snoc]
    rcases worker_step hs hpc hw with ⟨pc₀, st₀, hpc₀, hw₀⟩ | hclaim
    · rw [h.claimant_eq_none hs hpc₀ hw₀, Option.none_or]
      exact h.worker hid pc₀ st₀ hpc₀ hw₀
    · rw [hclaim, Option.some_or]
  running hid pc st hpc hw := by
    rcases worker_step hs hpc hw with ⟨pc₀, st₀, hpc₀, hw₀⟩ | hclaim
    · obtain ⟨t, ht, hid', hrun⟩ := Db.status?_eq_some.1 (h.running hid pc₀ st₀ hpc₀ hw₀)
      obtain ⟨t', ht', hle⟩ := (hinv.step hs).2.task t ht
      by_cases hrun' : t'.status = .running
      · exact Db.status?_eq_some.2 ⟨t', ht', hle.id.trans hid', hrun'⟩
      · -- the worker that ended the run is the one at hand, and it still works
        obtain ⟨w, o, pc₁, st₁, pc', -, hpc₁, hw₁, hpc', hnone⟩ :=
          running_ends hs hspared ht hid' hrun ht' (hle.id.trans hid') hrun'
        have hsame : w = hid := by
          have := h.worker w pc₁ st₁ hpc₁ hw₁
          rw [h.worker hid pc₀ st₀ hpc₀ hw₀, Option.some.injEq] at this
          exact this.symm
        obtain rfl : pc' = pc := Option.some.inj (hpc'.symm.trans (hsame ▸ hpc))
        simp [hnone] at hw
    · exact (claimant_rows hs hclaim).2
  returned pre u ev' w mid htrace hclaim hmid := by
    rcases List.eq_nil_or_concat mid with rfl | ⟨mid, q, rfl⟩
    · obtain ⟨rfl, hlast⟩ := List.append_inj' htrace rfl
      obtain ⟨rfl, rfl⟩ : s = u ∧ ev = ev' := by simpa using hlast
      obtain ⟨t', ht', hid', hst⟩ := Db.status?_eq_some.1 (claimant_rows hs hclaim).2
      exact .inl ⟨t', ht', hid', by simp [hst, TaskStatus.claimable]⟩
    · have happend : trace ++ [(s, ev)] = (pre ++ (u, ev') :: mid) ++ [q] := by simpa using htrace
      obtain ⟨rfl, hlast⟩ := List.append_inj' happend rfl
      obtain rfl : (s, ev) = q := by simpa using hlast
      have hmid' : ∀ p ∈ mid, claimant cfg tid p = none := fun p hp =>
        hmid p (by simp [hp])
      rcases h.returned pre u ev' w mid rfl hclaim hmid' with ⟨t, ht, hid, hst⟩ | ⟨v, o, hv, hret⟩
      · rcases h.retries_of_claimable (hinv.step hs).2 hs hspared ht hid hst with
          hrow | ⟨w', o, rfl, howner, hret⟩
        · exact .inl hrow
        · rw [owner_of_claimant hclaim hmid', Option.some.injEq] at howner
          subst howner
          exact .inr ⟨s, o, by simp, hret⟩
      · exact .inr ⟨v, o, by simp [hv], hret⟩

theorem exclusive_run (h : (queueMode cfg).Run (fun s ev => reaps cfg tid s ev = false) trace s) :
    Exclusive cfg tid trace s := by
  refine Lts.Run.invariant (I := Exclusive cfg tid) ?_ ?_ h
  · exact ⟨by simp [queueMode], by simp [queueMode], by simp⟩
  · intro trace s ev s' hrun hi hE hs
    exact hi.step (reachable_inv hrun.reachable) hs hE

/-- In every run in which the reaper never takes the task: at most one handler works on it, that is,
    stands between its claim and the commit of the outcome; the task is RUNNING while one does; and
    between two successive claims the holder of the first takes it from RUNNING to RETRYING. -/
theorem exclusive_work (h : (queueMode cfg).Run (fun s ev => reaps cfg tid s ev = false) trace s) :
    (∀ (hid hid' : Nat) (pc pc' : Pc) (st st' : Stage),
      s.handlers[hid]? = some pc → s.handlers[hid']? = some pc' →
      pc.work = some (tid, st) → pc'.work = some (tid, st') → hid = hid') ∧
    (∀ pc ∈ s.handlers, ∀ st, pc.work = some (tid, st) → s.db.status? tid = some .running) ∧
    ∀ pre u ev w mid u' ev' w' post, trace = pre ++ (u, ev) :: mid ++ (u', ev') :: post →
      claimant cfg tid (u, ev) = some w → claimant cfg tid (u', ev') = some w' →
      (∀ p ∈ mid, claimant cfg tid p = none) →
        ∃ v o, (v, .run w o) ∈ mid ∧ retries cfg tid (v, .run w o) = true := by
  have hexclusive := exclusive_run h
  refine ⟨?_, ?_, ?_⟩
  · intro hid hid' pc pc' st st' hpc hpc' hw hw'
    have howner := hexclusive.worker hid pc st hpc hw
    rw [hexclusive.worker hid' pc' st' hpc' hw', Option.some.injEq] at howner
    exact howner.symm
  · intro pc hmem st hw
    obtain ⟨hid, hpc⟩ := List.mem_iff_getElem?.1 hmem
    exact hexclusive.running hid pc st hpc hw
  · intro pre u ev w mid u' ev' w' post htrace hclaim hclaim' hmid
    obtain ⟨hrun, hE, u'', hs⟩ := h.split htrace
    rcases (exclusive_run hrun).returned pre u ev w mid rfl hclaim hmid with
      ⟨t, ht, hid, hst⟩ | hret
    · obtain ⟨t', ht', hid', hst'⟩ := (claimant_rows hs hclaim').1
      obtain rfl := Table.eq_of_key_eq ht' ht (hid'.trans hid.symm)
      simp [hst] at hst'
    · exact hret

/-- The first claim fails while a copy of the job is delivered; the retry is claimed by the copy that
    was delivered again before its backoff. -/
def duplicateDelivery : List Event :=
  .createExecution "q" 0 :: runs 0 1 { now := 0 } ++ .dequeue :: runs 1 16 { now := 0 } ++
    .dequeue :: runs 2 8 { now := 0 } ++ .redeliver (.task 1) :: runs 3 3 { now := 0 } ++
    runs 2 4 (raising 0) ++ .redeliver (.task 1) :: runs 4 8 { now := 0 }

theorem exclusive_work_duplicates :
    ∃ trace s, (queueMode (fallbackConfig (singleTask 2))).Run
        (fun s ev => reaps (fallbackConfig (singleTask 2)) 1 s ev = false) trace s ∧
      trace.filterMap (claimant (fallbackConfig (singleTask 2)) 1) = [2, 4] ∧
      ∀ pc ∈ s.handlers, ∀ st, pc.work = some (1, st) → s.db.status? 1 = some .running := by
  obtain ⟨trace, s, hrun, hcheck⟩ := (queueMode (fallbackConfig (singleTask 2))).exists_run
    (E := fun s ev => reaps (fallbackConfig (singleTask 2)) 1 s ev = false)
    (fun s ev => !reaps (fallbackConfig (singleTask 2)) 1 s ev)
    (fun trace _ => decide
      (trace.filterMap (claimant (fallbackConfig (singleTask 2)) 1) = [2, 4]))
    duplicateDelivery (fun _ _ hE => by simpa using hE) (by decide +kernel)
  exact ⟨trace, s, hrun, of_decide_eq_true hcheck, (exclusive_work hrun).2.1⟩

end AgenticExecution
