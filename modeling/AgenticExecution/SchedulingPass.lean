import AgenticExecution.Obligations
import Mathlib.Order.FixedPoints
import Mathlib.Order.CompletePartialOrder

set_option autoImplicit false

/-! # A call of schedule_execution

What one call does when nobody else writes, on any rows with different positions: the dependencies may
be cyclic, point forward or out of range. The loop ends, because every pass but the last decides about a
task. The tasks it fails are the least fixed point of the cascade, those it enqueues are the ones whose
dependencies were COMPLETED when it started, and it leaves nothing for a second call. -/

namespace AgenticExecution

variable {cfg : Config} {s s' s₀ : State} {db db₀ : Db} {e : ExecutionId} {k : ScheduleCaller}
  {hid : Nat} {marked marked' : List TaskId} {now : Time} {t t₀ d : Task} {u : TaskUpdate}
  {rows seen rest : List Task}

namespace Db

/-- The tasks a set of failed tasks takes along: PENDING, not enqueued, and with a dependency that is
    FAILED or in the set. -/
def cascade (db : Db) (e : ExecutionId) : Set TaskId →o Set TaskId where
  toFun S := {tid | ∃ t ∈ db.tasksOf e, t.id = tid ∧ t.Undecided ∧
    ∃ d ∈ db.tasks, t.DependsOn d ∧ (d.status = .failed ∨ d.id ∈ S)}
  monotone' := by
    rintro S S' h tid ⟨t, ht, hid, hund, d, hd, hdep, hfailed⟩
    exact ⟨t, ht, hid, hund, d, hd, hdep, hfailed.imp_right fun hmem => h hmem⟩

/-- The least set of tasks that fail with their dependencies. -/
def skips (db : Db) (e : ExecutionId) : Set TaskId := (db.cascade e).lfp

/-- A PENDING task that is not enqueued, whose dependencies are all COMPLETED. -/
def Startable (db : Db) (t : Task) : Prop :=
  t.Undecided ∧ ∀ d ∈ db.tasks, t.DependsOn d → d.status = .completed

/-- A pass over the rows of `e` has nothing to decide. -/
def Stable (db : Db) (e : ExecutionId) : Prop :=
  ∀ t ∈ db.tasksOf e, t.Undecided → (∀ d ∈ db.tasks, t.DependsOn d → d.status ≠ .failed) ∧
    ∃ d ∈ db.tasks, t.DependsOn d ∧ d.status ≠ .completed

theorem mem_skips {tid : TaskId} : tid ∈ db.skips e ↔ ∃ t ∈ db.tasksOf e, t.id = tid ∧ t.Undecided ∧
    ∃ d ∈ db.tasks, t.DependsOn d ∧ (d.status = .failed ∨ d.id ∈ db.skips e) := by
  conv_lhs => rw [skips, ← (db.cascade e).map_lfp]
  rfl

theorem undecided_of_skips (h : t.id ∈ db.skips e) (ht : t ∈ db.tasks) : t.Undecided := by
  obtain ⟨t', ht', hid, hund, -⟩ := mem_skips.1 h
  obtain rfl := Table.eq_of_key_eq (mem_tasksOf.1 ht').1 ht hid
  exact hund

/-- A task that can start is not one of those that fail. -/
theorem Startable.not_skips (h : db.Startable t) (ht : t ∈ db.tasks) : t.id ∉ db.skips e := by
  intro hskip
  obtain ⟨t', ht', hid, -, d, hd, hdep, hfailed⟩ := mem_skips.1 hskip
  obtain rfl := Table.eq_of_key_eq (mem_tasksOf.1 ht').1 ht hid
  have hcompleted := h.2 d hd hdep
  rcases hfailed with hs | hs
  · rw [hcompleted] at hs
    cases hs
  · have hpending := (undecided_of_skips hs hd).1
    rw [hcompleted] at hpending
    cases hpending

end Db

/-! ## The loaded rows -/

theorem mem_dependencies_iff (hindex : (rows.map Task.orderIndex).Nodup) :
    d ∈ dependencies rows t ↔ d ∈ rows ∧ d.orderIndex ∈ t.dependsOn := by
  refine ⟨mem_dependencies, fun ⟨hd, hi⟩ => ?_⟩
  obtain ⟨d', hfind⟩ := exists_byIndex ⟨d, hd, rfl⟩
  obtain ⟨hd', hidx⟩ := byIndex_eq_some hfind
  obtain rfl := List.inj_on_of_nodup_map hindex hd' hd hidx
  exact List.mem_filterMap.2 ⟨_, hi, hfind⟩

theorem mem_dependencies_loaded (hindex : ((db.tasksOf e).map Task.orderIndex).Nodup)
    (hperm : rows.Perm (db.tasksOf e)) (ht : t.executionId = e) :
    d ∈ dependencies rows t ↔ d ∈ db.tasks ∧ t.DependsOn d := by
  rw [mem_dependencies_iff ((hperm.map Task.orderIndex).nodup_iff.2 hindex), hperm.mem_iff,
    Db.mem_tasksOf, Task.DependsOn, ht, and_assoc]

theorem verdict_enqueue (h : verdict rows t = .enqueue) :
    ∀ d ∈ dependencies rows t, d.status = .completed := by
  unfold verdict at h
  split_ifs at h with hfailed hcompleted
  simpa using hcompleted

/-! ## What has been done so far -/

/-- What a call has done to a row: nothing, or one of its two updates. -/
inductive Passed (db₀ : Db) (e : ExecutionId) (marked : List TaskId) (t₀ : Task) : Task → Prop
  | kept (hno : t₀.id ∉ marked) : Passed db₀ e marked t₀ t₀
  | skipped (now : Time) (hno : t₀.id ∉ marked) (h : t₀.id ∈ db₀.skips e) :
      Passed db₀ e marked t₀ (TaskUpdate.skipTask.set now t₀)
  | marked (now : Time) (hmem : t₀.id ∈ marked) (he : t₀.executionId = e) (h : db₀.Startable t₀) :
      Passed db₀ e marked t₀ (TaskUpdate.markEnqueued.set now t₀)

namespace Passed

theorem id_eq (h : Passed db₀ e marked t₀ t) : t.id = t₀.id := by
  cases h <;> rfl

theorem dependsOn_iff {d₀ : Task} (h : Passed db₀ e marked t₀ t) (hd : Passed db₀ e marked d₀ d) :
    t.DependsOn d ↔ t₀.DependsOn d₀ := by
  cases h <;> cases hd <;> rfl

/-- A row the call may still decide about is as it was. -/
theorem eq_of_undecided (h : Passed db₀ e marked t₀ t) (hund : t.Undecided) :
    t = t₀ ∧ t₀.id ∉ marked := by
  cases h with
  | kept hno => exact ⟨rfl, hno⟩
  | skipped => cases hund.1
  | marked => cases hund.2

theorem failed (h : Passed db₀ e marked t₀ t) (hs : t.status = .failed) :
    t₀.status = .failed ∨ t₀.id ∈ db₀.skips e := by
  cases h with
  | kept => exact .inl hs
  | skipped now hno h => exact .inr h
  | marked => exact .inl hs

theorem completed_iff (h : Passed db₀ e marked t₀ t) (ht₀ : t₀ ∈ db₀.tasks) :
    t.status = .completed ↔ t₀.status = .completed := by
  cases h with
  | kept | marked => rfl
  | skipped now hno h =>
      have hpending := (Db.undecided_of_skips h ht₀).1
      rw [hpending]
      exact iff_of_false nofun nofun

theorem failed_of (h : Passed db₀ e marked t₀ t) (hs : t₀.status = .failed) : t.status = .failed := by
  cases h with
  | kept | marked => exact hs
  | skipped => rfl

theorem congr (h : Passed db₀ e marked t₀ t) (hmem : t₀.id ∈ marked' ↔ t₀.id ∈ marked) :
    Passed db₀ e marked' t₀ t := by
  cases h with
  | kept hno => exact .kept (mt hmem.1 hno)
  | skipped now hno h => exact .skipped now (mt hmem.1 hno) h
  | marked now hold he h => exact .marked now (hmem.2 hold) he h

end Passed

/-- The database `db` of a call that started with `db₀` and has enqueued `marked`. -/
structure Passing (db₀ db : Db) (e : ExecutionId) (marked : List TaskId) : Prop where
  rows : ∀ t₀ ∈ db₀.tasks, ∃ t ∈ db.tasks, Passed db₀ e marked t₀ t
  origin : ∀ t ∈ db.tasks, ∃ t₀ ∈ db₀.tasks, Passed db₀ e marked t₀ t
  index : (db.tasksOf e).map Task.orderIndex = (db₀.tasksOf e).map Task.orderIndex
  executions : db.executions = db₀.executions
  results : db.results = db₀.results
  nodup : marked.Nodup
  known : ∀ tid ∈ marked, ∃ t₀ ∈ db₀.tasks, t₀.id = tid
  stable : db₀.Stable e → db = db₀ ∧ marked = []

theorem Passing.refl (db : Db) (e : ExecutionId) : Passing db db e [] where
  rows t ht := ⟨t, ht, .kept List.not_mem_nil⟩
  origin t ht := ⟨t, ht, .kept List.not_mem_nil⟩
  index := rfl
  executions := rfl
  results := rfl
  nodup := List.nodup_nil
  known := by simp
  stable _ := ⟨rfl, rfl⟩

namespace Db

theorem tasksOf_updateTask (db : Db) (now : Time) (tid : TaskId) (u : TaskUpdate) (e : ExecutionId) :
    (db.updateTask now tid u).tasksOf e =
      (db.tasksOf e).map fun t => if t.id = tid ∧ u.guard t = true then u.set now t else t := by
  refine db.tasksOf_update (u.set_id now) fun t => ?_
  cases u <;> rfl

end Db

/-- The call goes on with the update of a row it may decide about. -/
theorem Passing.update (h : Passing db₀ db e marked) (ht : t ∈ db.tasks) (hund : t.Undecided)
    (hg : u.guard t = true) (hnew : Passed db₀ e marked' t (u.set now t))
    (hother : ∀ tid, tid ≠ t.id → (tid ∈ marked' ↔ tid ∈ marked)) (hnodup : marked'.Nodup)
    (hunstable : ¬ db.Stable e) : Passing db₀ (db.updateTask now t.id u) e marked' := by
  have hold : t ∈ db₀.tasks := by
    obtain ⟨t₀, ht₀, hp⟩ := h.origin t ht
    exact (hp.eq_of_undecided hund).1 ▸ ht₀
  constructor
  case rows =>
    intro t₀ ht₀
    obtain ⟨v, hv, hp⟩ := h.rows t₀ ht₀
    by_cases hid : t₀.id = t.id
    · obtain rfl := Table.eq_of_key_eq ht₀ hold hid
      exact ⟨_, Db.set_mem_updateTask ht rfl hg, hnew⟩
    · exact ⟨v, Db.mem_updateTask_of_not hv fun hv => absurd (hp.id_eq.symm.trans hv) hid,
        hp.congr (hother _ hid)⟩
  case origin =>
    intro t' ht'
    obtain ⟨v, hv, rfl⟩ := Db.mem_updateTask.1 ht'
    by_cases hid : v.id = t.id
    · obtain rfl := Table.eq_of_key_eq hv ht hid
      rw [if_pos ⟨rfl, hg⟩]
      exact ⟨v, hold, hnew⟩
    · rw [if_neg fun hc => hid hc.1]
      obtain ⟨t₀, ht₀, hp⟩ := h.origin v hv
      exact ⟨t₀, ht₀, hp.congr (hother _ (hp.id_eq ▸ hid))⟩
  case index =>
    rw [← h.index, Db.tasksOf_updateTask, List.map_map]
    refine List.map_congr_left fun v _ => ?_
    simp only [Function.comp_apply]
    split_ifs
    · cases u <;> rfl
    · rfl
  case executions => exact h.executions
  case results => exact h.results
  case nodup => exact hnodup
  case known =>
    intro tid hmem
    by_cases hid : tid = t.id
    · exact ⟨t, hold, hid.symm⟩
    · exact h.known tid ((hother tid hid).1 hmem)
  case stable =>
    intro hstable
    obtain ⟨rfl, -⟩ := h.stable hstable
    exact absurd hstable hunstable

/-- A row whose dependency is FAILED now is one of those that fail. -/
theorem Passing.skips (h : Passing db₀ db e marked) (ht : t ∈ db.tasksOf e) (hund : t.Undecided)
    (hd : d ∈ db.tasks) (hdep : t.DependsOn d) (hfailed : d.status = .failed) :
    t.id ∈ db₀.skips e ∧ t.id ∉ marked := by
  obtain ⟨hmem, he⟩ := Db.mem_tasksOf.1 ht
  obtain ⟨t₀, ht₀, hp⟩ := h.origin t hmem
  obtain ⟨rfl, hno⟩ := hp.eq_of_undecided hund
  obtain ⟨d₀, hd₀, hpd⟩ := h.origin d hd
  exact ⟨Db.mem_skips.2 ⟨t, Db.mem_tasksOf.2 ⟨ht₀, he⟩, rfl, hund, d₀, hd₀,
    (hp.dependsOn_iff hpd).1 hdep, hpd.failed hfailed⟩, hno⟩

/-- A row whose dependencies are COMPLETED now is one of those that can start. -/
theorem Passing.startable (h : Passing db₀ db e marked) (ht : t ∈ db.tasks) (hund : t.Undecided)
    (hall : ∀ d ∈ db.tasks, t.DependsOn d → d.status = .completed) :
    db₀.Startable t ∧ t.id ∉ marked := by
  obtain ⟨t₀, ht₀, hp⟩ := h.origin t ht
  obtain ⟨rfl, hno⟩ := hp.eq_of_undecided hund
  refine ⟨⟨hund, fun d₀ hd₀ hdep => ?_⟩, hno⟩
  obtain ⟨d, hd, hpd⟩ := h.rows d₀ hd₀
  exact (hpd.completed_iff hd₀).1 (hall d hd ((hp.dependsOn_iff hpd).2 hdep))

theorem Passing.skip (h : Passing db₀ db e marked) (ht : t ∈ db.tasksOf e) (hund : t.Undecided)
    (hd : d ∈ db.tasks) (hdep : t.DependsOn d) (hfailed : d.status = .failed) :
    Passing db₀ (db.updateTask now t.id .skipTask) e marked := by
  obtain ⟨hskip, hno⟩ := h.skips ht hund hd hdep hfailed
  exact h.update (Db.mem_tasksOf.1 ht).1 hund (by simp [TaskUpdate.guard, hund.1])
    (.skipped now hno hskip) (fun _ _ => Iff.rfl) h.nodup
    fun hstable => (hstable t ht hund).1 d hd hdep hfailed

theorem Passing.mark (h : Passing db₀ db e marked) (ht : t ∈ db.tasksOf e) (hund : t.Undecided)
    (hall : ∀ d ∈ db.tasks, t.DependsOn d → d.status = .completed) :
    Passing db₀ (db.updateTask now t.id .markEnqueued) e (marked ++ [t.id]) := by
  obtain ⟨hmem, he⟩ := Db.mem_tasksOf.1 ht
  obtain ⟨hstart, hno⟩ := h.startable hmem hund hall
  refine h.update hmem hund (by simp [TaskUpdate.guard, hund.2]) (.marked now (by simp) he hstart)
    (fun tid hid => by simp [hid]) ?_ fun hstable => ?_
  · exact List.nodup_append.2 ⟨h.nodup, List.nodup_singleton _, by
      rintro a ha b hb rfl
      exact hno (List.mem_singleton.1 hb ▸ ha)⟩
  · obtain ⟨d, hd, hdep, hne⟩ := (hstable t ht hund).2
    exact hne (hall d hd hdep)

/-- A call that has nothing left to decide has failed all tasks that fail, and enqueued all that can
    start. -/
theorem Passing.complete (h : Passing db₀ db e marked) (hstable : db.Stable e) (ht₀ : t₀ ∈ db₀.tasks)
    (ht : t ∈ db.tasks) (hp : Passed db₀ e marked t₀ t) :
    (t₀.id ∈ db₀.skips e → ∃ now, t = TaskUpdate.skipTask.set now t₀) ∧
      (t₀.executionId = e → db₀.Startable t₀ → t₀.id ∈ marked) := by
  -- a row the call left open waits for a dependency, and none of its dependencies has failed
  have hundone : ∀ t₀ ∈ db₀.tasks, t₀.executionId = e → ∀ t ∈ db.tasks, Passed db₀ e marked t₀ t →
      t.Undecided → (∀ d₀ ∈ db₀.tasks, t₀.DependsOn d₀ → ∀ d ∈ db.tasks,
        Passed db₀ e marked d₀ d → d.status ≠ .failed) ∧
          ∃ d₀ ∈ db₀.tasks, t₀.DependsOn d₀ ∧ d₀.status ≠ .completed := by
    intro t₀ ht₀ he t ht hp hund
    obtain ⟨rfl, -⟩ := hp.eq_of_undecided hund
    obtain ⟨hnone, d, hd, hdep, hne⟩ := hstable t (Db.mem_tasksOf.2 ⟨ht, he⟩) hund
    refine ⟨fun d₀ hd₀ hdep₀ d' hd' hpd => hnone d' hd' ((hp.dependsOn_iff hpd).2 hdep₀), ?_⟩
    obtain ⟨d₀, hd₀, hpd⟩ := h.origin d hd
    exact ⟨d₀, hd₀, (hp.dependsOn_iff hpd).1 hdep, mt (hpd.completed_iff hd₀).2 hne⟩
  -- the rows the call has failed are closed under the cascade
  have hclosed : db₀.skips e ≤ {tid | ∃ t₀ ∈ db₀.tasks, t₀.id = tid ∧ ∃ now,
      TaskUpdate.skipTask.set now t₀ ∈ db.tasks} := by
    refine (db₀.cascade e).lfp_le ?_
    rintro tid ⟨t₀, ht₀, rfl, hund, d₀, hd₀, hdep, hfailed⟩
    obtain ⟨hmem₀, he⟩ := Db.mem_tasksOf.1 ht₀
    have hfailed : ∃ d ∈ db.tasks, Passed db₀ e marked d₀ d ∧ d.status = .failed := by
      obtain ⟨d, hd, hpd⟩ := h.rows d₀ hd₀
      rcases hfailed with hs | ⟨d₁, hd₁, hid, now, hmem⟩
      · exact ⟨d, hd, hpd, hpd.failed_of hs⟩
      · obtain rfl := Table.eq_of_key_eq hd₁ hd₀ hid
        obtain rfl := Table.eq_of_key_eq hmem hd hpd.id_eq.symm
        exact ⟨_, hd, hpd, rfl⟩
    obtain ⟨d, hd, hpd, hs⟩ := hfailed
    obtain ⟨t, ht, hp⟩ := h.rows t₀ hmem₀
    -- it is not still open, and it was not enqueued: a dependency of it has failed
    cases hp with
    | kept hno => exact absurd hs ((hundone t₀ hmem₀ he t₀ ht (.kept hno) hund).1 d₀ hd₀ hdep d hd hpd)
    | skipped now => exact ⟨t₀, hmem₀, rfl, now, ht⟩
    | marked now hmem _ hstart =>
        have hcompleted := (hpd.completed_iff hd₀).2 (hstart.2 d₀ hd₀ hdep)
        rw [hs] at hcompleted
        cases hcompleted
  constructor
  · intro hskip
    obtain ⟨t₁, ht₁, hid, now, hmem⟩ := hclosed hskip
    obtain rfl := Table.eq_of_key_eq ht₁ ht₀ hid
    exact ⟨now, Table.eq_of_key_eq ht hmem hp.id_eq⟩
  · intro he hstart
    by_contra hno
    have hund : t.Undecided := by
      cases hp with
      | kept => exact hstart.1
      | skipped now _ hskip => exact absurd hskip (hstart.not_skips ht₀)
      | marked now hmem => exact absurd hmem hno
    obtain ⟨d₀, hd₀, hdep, hne⟩ := (hundone t₀ ht₀ he t ht hp hund).2
    exact hne (hstart.2 d₀ hd₀ hdep)

/-! ## The loop -/

/-- `enqueue_task` for each of the tasks. -/
def Redis.enqueueAll (r : Redis) (tids : List TaskId) : Redis :=
  { r with queue := r.queue ++ tids.map .task, published := r.published ++ tids.map .task }

theorem Redis.enqueueAll_nil (r : Redis) : r.enqueueAll [] = r := by
  simp [Redis.enqueueAll]

theorem Redis.enqueueAll_snoc (r : Redis) (tids : List TaskId) (tid : TaskId) :
    (r.enqueueAll tids).send (.enqueue (.task tid)) = r.enqueueAll (tids ++ [tid]) := by
  simp [Redis.enqueueAll, Redis.send, Redis.enqueue]

section Alone

variable {P : State → Prop} {pc : Pc}

/-- What handler `hid` alone gets to from the state after its next effect, it gets to from this one. -/
theorem reaches_step (hpc : s.handlers[hid]? = some pc) (hlive : pc ≠ .done)
    (h : ∀ o : Oracle, (queueMode cfg).Reaches (Event.run hid) P
      (s.perform hid o.now (pc.act cfg o s.db s.redis))) :
    (queueMode cfg).Reaches (Event.run hid) P s := by
  have hstep : ∀ o : Oracle, (queueMode cfg).step s (.run hid o) =
      some (s.perform hid o.now (pc.act cfg o s.db s.redis)) := by
    intro o
    have hfound : s.live? hid = some pc := by
      unfold State.live?
      rw [hpc]
      cases pc with
      | done => exact absurd rfl hlive
      | _ => rfl
    show (s.live? hid).map _ = _
    rw [hfound]
    rfl
  refine .later (fun o => by rw [hstep o]; rfl) fun o s' hs => ?_
  rw [hstep o] at hs
  exact Option.some.inj hs ▸ h o

theorem State.move_pc (hpc : s.handlers[hid]? = some pc) (pc' : Pc) :
    (s.move hid pc').handlers[hid]? = some pc' := by
  obtain ⟨hlt, -⟩ := List.getElem?_eq_some_iff.1 hpc
  exact List.getElem?_set_self hlt

end Alone

/-- The rows the loop may still decide about. -/
def openRows (rows : List Task) : Nat := rows.countP fun t => t.status = .pending && !t.enqueued

/-- The loop of a call that started in `s₀` is over, and has left nothing to decide. -/
def Looped (s₀ : State) (hid : Nat) (e : ExecutionId) (k : ScheduleCaller) (s : State) : Prop :=
  s.handlers[hid]? = some (.finalizeGet e k) ∧ s.db.Stable e ∧
    ∃ marked, Passing s₀.db s.db e marked ∧ s.redis = s₀.redis.enqueueAll marked

/-- The loaded rows follow an update of one of them. -/
theorem loaded_update (now : Time) (hperm : (seen ++ t :: rest).Perm (db.tasksOf e))
    (hg : u.guard t = true) :
    (seen ++ [u.set now t] ++ rest).Perm ((db.updateTask now t.id u).tasksOf e) := by
  have hnodup := (hperm.map Task.id).nodup_iff.2 (db.tasksOf_nodup e)
  rw [Db.tasksOf_updateTask, List.append_assoc, List.singleton_append,
    ← Table.map_update_middle hnodup rfl hg]
  exact hperm.map _

theorem openRows_update (hund : t.Undecided) {t' : Task}
    (hdecided : ¬ t'.Undecided) : openRows (seen ++ [t'] ++ rest) < openRows (seen ++ t :: rest) := by
  have hold : (decide (t.status = .pending) && !t.enqueued) = true := by simp [hund.1, hund.2]
  have hnew : (decide (t'.status = .pending) && !t'.enqueued) = false := by
    cases hs : decide (t'.status = .pending) && !t'.enqueued with
    | false => rfl
    | true => exact absurd (by simpa [Task.Undecided] using hs) hdecided
  simp only [openRows, List.countP_append, List.countP_cons, List.countP_nil, hold, hnew]
  simp

/-- The loop in state `s`, over the loaded rows `seen ++ rest`; `n` rows were open when it loaded them.
    As long as it has changed nothing, it has no decision to make about the rows it has seen. -/
structure Scanning (s₀ : State) (hid : Nat) (e : ExecutionId) (k : ScheduleCaller) (n : Nat)
    (seen rest : List Task) (changed : Bool) (marked : List TaskId) (s : State) : Prop where
  pc : s.handlers[hid]? = some (.scheduleScan e k seen rest changed)
  passing : Passing s₀.db s.db e marked
  redis : s.redis = s₀.redis.enqueueAll marked
  loaded : (seen ++ rest).Perm (s.db.tasksOf e)
  le : openRows (seen ++ rest) ≤ n
  lt : changed = true → openRows (seen ++ rest) < n
  wait : changed = false → ∀ t ∈ seen, t.Undecided → verdict (seen ++ rest) t = .wait

namespace Scanning

variable {n : Nat} {changed : Bool}

theorem mem (h : Scanning s₀ hid e k n seen (t :: rest) changed marked s) : t ∈ s.db.tasksOf e :=
  h.loaded.mem_iff.1 (by simp)

theorem dependencies_iff (hindex : ((s₀.db.tasksOf e).map Task.orderIndex).Nodup)
    (h : Scanning s₀ hid e k n seen rest changed marked s) (ht : t ∈ s.db.tasksOf e) :
    d ∈ dependencies (seen ++ rest) t ↔ d ∈ s.db.tasks ∧ t.DependsOn d :=
  mem_dependencies_loaded (h.passing.index ▸ hindex) h.loaded (Db.mem_tasksOf.1 ht).2

/-- A row the loop does nothing about. -/
theorem pass (h : Scanning s₀ hid e k n seen (t :: rest) changed marked s)
    (hwait : t.Undecided → verdict (seen ++ t :: rest) t = .wait)
    (hpc : s'.handlers[hid]? = some (.scheduleScan e k (seen ++ [t]) rest changed))
    (hdb : s'.db = s.db) (hredis : s'.redis = s.redis) :
    Scanning s₀ hid e k n (seen ++ [t]) rest changed marked s' := by
  have hshift : seen ++ t :: rest = seen ++ [t] ++ rest := by simp
  refine ⟨hpc, hdb ▸ h.passing, hredis ▸ h.redis, hdb ▸ hshift ▸ h.loaded, hshift ▸ h.le,
    hshift ▸ h.lt, fun hc v hv hund => ?_⟩
  rw [← hshift]
  rcases List.mem_append.1 hv with hv | hv
  · exact h.wait hc v hv hund
  · obtain rfl := List.mem_singleton.1 hv
    exact hwait hund

/-- A row the loop has decided about. -/
theorem decided (h : Scanning s₀ hid e k n seen (t :: rest) changed marked s) (hund : t.Undecided)
    (hg : u.guard t = true) (hdecided : ¬ (u.set now t).Undecided)
    (hpc : s'.handlers[hid]? = some (.scheduleScan e k (seen ++ [u.set now t]) rest true))
    (hdb : s'.db = s.db.updateTask now t.id u) (hpassing : Passing s₀.db s'.db e marked')
    (hredis : s'.redis = s₀.redis.enqueueAll marked') :
    Scanning s₀ hid e k n (seen ++ [u.set now t]) rest true marked' s' := by
  have hless : openRows (seen ++ [u.set now t] ++ rest) < n :=
    Nat.lt_of_lt_of_le (openRows_update hund hdecided) h.le
  exact ⟨hpc, hpassing, hredis, hdb ▸ loaded_update now h.loaded hg, Nat.le_of_lt hless, fun _ => hless,
    nofun⟩

/-- When a pass has changed nothing, nothing is left to decide. -/
theorem stable (hindex : ((s₀.db.tasksOf e).map Task.orderIndex).Nodup)
    (h : Scanning s₀ hid e k n seen [] false marked s) : s.db.Stable e := by
  intro t ht hund
  have hmem : t ∈ seen := by simpa using h.loaded.mem_iff.2 ht
  have hverdict := mt verdict_ne_wait.2 (not_not.2 (h.wait rfl t hmem hund))
  rw [not_or] at hverdict
  obtain ⟨hnone, hsome⟩ := hverdict
  push Not at hsome
  obtain ⟨d, hd, hne⟩ := hsome
  obtain ⟨hd, hdep⟩ := (h.dependencies_iff hindex ht).1 hd
  exact ⟨fun d hd hdep hs => hnone ⟨d, (h.dependencies_iff hindex ht).2 ⟨hd, hdep⟩, hs⟩,
    d, hd, hdep, hne⟩

/-- The loop over the loaded rows. `hselect` is the next pass, with fewer open rows. -/
theorem reaches (hindex : ((s₀.db.tasksOf e).map Task.orderIndex).Nodup)
    (hselect : ∀ s marked, s.handlers[hid]? = some (.scheduleSelect e k) →
      Passing s₀.db s.db e marked → s.redis = s₀.redis.enqueueAll marked →
        openRows (s.db.tasksOf e) < n → (queueMode cfg).Reaches (Event.run hid) (Looped s₀ hid e k) s)
    (h : Scanning s₀ hid e k n seen rest changed marked s) :
    (queueMode cfg).Reaches (Event.run hid) (Looped s₀ hid e k) s := by
  induction rest generalizing s seen changed marked with
  | nil =>
      have hstable : changed = false → s.db.Stable e := by
        rintro rfl
        exact h.stable hindex
      refine reaches_step h.pc (by rintro ⟨⟩) fun o => ?_
      cases changed with
      | true =>
          refine hselect _ marked (State.move_pc h.pc _) h.passing h.redis ?_
          show openRows (s.db.tasksOf e) < n
          rw [openRows, ← h.loaded.countP_eq]
          exact h.lt rfl
      | false => exact .now ⟨State.move_pc h.pc _, hstable rfl, marked, h.passing, h.redis⟩
  | cons t rest ih =>
      obtain ⟨hmem, he⟩ := Db.mem_tasksOf.1 h.mem
      refine reaches_step h.pc (by rintro ⟨⟩) fun o => ?_
      rw [Pc.act, scanAct]
      by_cases hund : t.Undecided
      · rw [if_neg (by simp [hund.1, hund.2])]
        cases hv : verdict (seen ++ t :: rest) t with
        | wait => exact ih (h.pass (fun _ => hv) (State.move_pc h.pc _) rfl rfl)
        | skip =>
            obtain ⟨d, hd, hfailed⟩ := verdict_skip hv
            obtain ⟨hd, hdep⟩ := (h.dependencies_iff hindex h.mem).1 hd
            have hg : TaskUpdate.skipTask.guard t = true := by simp [TaskUpdate.guard, hund.1]
            refine ih (h.decided hund hg (fun hboth => by cases hboth.1) ?_ rfl
              (h.passing.skip h.mem hund hd hdep hfailed) h.redis)
            rw [State.perform, Db.rowcount_updateTask hmem rfl hg]
            simpa using State.move_pc h.pc _
        | enqueue =>
            have hall : ∀ d ∈ s.db.tasks, t.DependsOn d → d.status = .completed := fun d hd hdep =>
              verdict_enqueue hv d ((h.dependencies_iff hindex h.mem).2 ⟨hd, hdep⟩)
            have hg : TaskUpdate.markEnqueued.guard t = true := by simp [TaskUpdate.guard, hund.2]
            -- the update matches the row, so its job is pushed next
            have hpush : (s.perform hid o.now (.commit (.updateTask t.id .markEnqueued) fun n =>
                let seen := seen ++ [TaskUpdate.markEnqueued.set o.now t]
                if n = 1 then .schedulePush e k seen rest t.id
                else .scheduleScan e k seen rest changed)).handlers[hid]? =
                  some (.schedulePush e k (seen ++ [TaskUpdate.markEnqueued.set o.now t]) rest t.id) := by
              rw [State.perform, Db.rowcount_updateTask hmem rfl hg]
              simpa using State.move_pc h.pc _
            refine reaches_step hpush (by rintro ⟨⟩) fun o' => ?_
            refine ih (h.decided hund hg (fun hboth => by cases hboth.2) (State.move_pc hpush _) rfl
              (h.passing.mark h.mem hund hall) ?_)
            show s.redis.send (.enqueue (.task t.id)) = _
            rw [h.redis, Redis.enqueueAll_snoc]
      · have hclosed : (decide (t.status ≠ .pending) || t.enqueued) = true := by
          by_contra hno
          exact hund (by simpa [Task.Undecided] using hno)
        rw [if_pos hclosed]
        exact ih (h.pass (fun hu => absurd hu hund) (State.move_pc h.pc _) rfl rfl)

end Scanning

/-- The whole loop. -/
theorem select_reaches (hindex : ((s₀.db.tasksOf e).map Task.orderIndex).Nodup)
    (hpc : s.handlers[hid]? = some (.scheduleSelect e k)) (hpassing : Passing s₀.db s.db e marked)
    (hredis : s.redis = s₀.redis.enqueueAll marked) :
    (queueMode cfg).Reaches (Event.run hid) (Looped s₀ hid e k) s := by
  induction hn : openRows (s.db.tasksOf e) using Nat.strong_induction_on generalizing s marked with
  | _ n ih =>
      refine reaches_step hpc nofun fun o => ?_
      have hperm := Table.reorder_perm o.order (s.db.tasksOf e)
      have hle : openRows (Table.reorder o.order (s.db.tasksOf e)) ≤ n := by
        rw [openRows, hperm.countP_eq]
        exact Nat.le_of_eq hn
      have hscan : Scanning s₀ hid e k n [] (Table.reorder o.order (s.db.tasksOf e)) false marked
          (s.perform hid o.now (.goto (.scheduleScan e k [] (Table.reorder o.order (s.db.tasksOf e))
            false))) :=
        ⟨State.move_pc hpc _, hpassing, hredis, hperm, hle, nofun, fun _ t ht => absurd ht List.not_mem_nil⟩
      refine hscan.reaches hindex ?_
      intro s' marked' hpc' hpassing' hredis' hlt
      exact ih _ hlt hpc' hpassing' hredis' rfl

/-! ## _finalize -/

/-- `_finalize` has nothing to write. -/
def Db.Finalized (db : Db) (e : ExecutionId) : Prop :=
  ∀ x ∈ db.executions, x.id = e → x.status = .running →
    db.tasksOf e = [] ∨ ∃ t ∈ db.tasksOf e, t.status.isTerminal = false

/-- `_finalize`, called in `s₁`, has returned: it wrote the execution at most, and nothing if there was
    nothing to write. -/
structure FinalizeReturned (s₁ : State) (hid : Nat) (e : ExecutionId) (k : ScheduleCaller) (s : State) :
    Prop where
  pc : s.handlers[hid]? = some k.resume
  redis : s.redis = s₁.redis
  tasks : s.db.tasks = s₁.db.tasks
  results : s.db.results = s₁.db.results
  finalized : s.db.Finalized e
  same : s₁.db.Finalized e → s.db = s₁.db

/-- The two updates of `_finalize` match a RUNNING execution, and leave none. -/
theorem finish_reaches {s₁ : State} {u : Oracle → ExecutionUpdate} {x : Execution} {pc : Pc}
    (hpc : s.handlers[hid]? = some pc) (hlive : pc ≠ .done)
    (hact : ∀ o, pc.act cfg o s.db s.redis = .commit (.updateExecution x.id (u o)) fun _ => k.resume)
    (hg : ∀ o x, (u o).guard x = decide (x.status = .running))
    (hset : ∀ o now x, ((u o).set now x).status ≠ .running) (hx : x.id = e)
    (hdb : s.db = s₁.db) (hredis : s.redis = s₁.redis) (hne : s.db.tasksOf e ≠ [])
    (hterminal : ∀ t ∈ s.db.tasksOf e, t.status.isTerminal = true) :
    (queueMode cfg).Reaches (Event.run hid) (FinalizeReturned s₁ hid e k) s := by
  subst hx
  refine reaches_step hpc hlive fun o => .now ?_
  rw [hact o]
  have htasks : s.db.tasks = s₁.db.tasks := congrArg Db.tasks hdb
  have hresults : s.db.results = s₁.db.results := congrArg Db.results hdb
  refine ⟨State.move_pc hpc _, hredis, htasks, hresults, ?_, fun hfin => ?_⟩
  · intro x' hx' hid' hrunning
    obtain ⟨y, hy, rfl⟩ := Db.mem_updateExecution.1 hx'
    split_ifs at hrunning hid' with hc
    · exact absurd hrunning (hset o _ _)
    · rw [hg, decide_eq_true_eq] at hc
      exact absurd ⟨hid', hrunning⟩ hc
  · have hnone : ∀ y ∈ s.db.executions, y.id = x.id → (u o).guard y = false := by
      intro y hy hid'
      rw [hg, decide_eq_false_iff_not]
      intro hrunning
      rw [← hdb] at hfin
      rcases hfin y hy hid' hrunning with hnil | ⟨t, ht, hopen⟩
      · exact hne hnil
      · rw [hterminal t ht] at hopen
        cases hopen
    show s.db.updateExecution o.now x.id (u o) = s₁.db
    rw [Db.updateExecution, Table.update_of_not _ hnone, ← hdb]

/-- Every task is COMPLETED: the outcomes are loaded one by one. -/
theorem load_reaches {s₁ : State} {x : Execution} {tasks : List Task} (hx : x.id = e)
    (hne : s₁.db.tasksOf e ≠ []) (hterminal : ∀ t ∈ s₁.db.tasksOf e, t.status.isTerminal = true)
    (rest : List Task) : ∀ (s : State) (outcomes : List TaskOutcome),
      s.handlers[hid]? = some (.finalizeLoad x k tasks rest outcomes) → s.db = s₁.db →
      s.redis = s₁.redis → (queueMode cfg).Reaches (Event.run hid) (FinalizeReturned s₁ hid e k) s := by
  induction rest with
  | nil =>
      intro s outcomes hpc hdb hredis
      refine reaches_step hpc nofun fun o => ?_
      refine finish_reaches (u := fun o => .completeExecution (aggregate x.userRequest outcomes)
        (msBetween x.startedAt o.now) (sumTokens tasks) (sumCosts tasks)) (State.move_pc hpc _) nofun
        (fun _ => rfl) (fun _ _ => rfl) (fun _ _ _ => nofun) hx hdb hredis ?_ ?_
      · exact hdb ▸ hne
      · exact hdb ▸ hterminal
  | cons t rest ih =>
      intro s outcomes hpc hdb hredis
      exact reaches_step hpc nofun fun o => ih _ _ (State.move_pc hpc _) hdb hredis

theorem finalize_reaches {s₁ : State} (hpc : s₁.handlers[hid]? = some (.finalizeGet e k)) :
    (queueMode cfg).Reaches (Event.run hid) (FinalizeReturned s₁ hid e k) s₁ := by
  refine reaches_step hpc (by rintro ⟨⟩) fun o => ?_
  rw [Pc.act]
  cases hfind : s₁.db.executions.find? e with
  | none =>
      have hnone := Table.find?_eq_none_iff.1 hfind
      exact .now ⟨State.move_pc hpc _, rfl, rfl, rfl, fun x hx hid' => absurd hid' (hnone x hx), fun _ => rfl⟩
  | some x =>
      obtain ⟨hx, rfl⟩ := Table.find?_eq_some_iff.1 hfind
      have hpc₂ := State.move_pc hpc (.finalizeSelect x k)
      refine reaches_step hpc₂ (by rintro ⟨⟩) fun o' => ?_
      have hmem : ∀ t, t ∈ Table.reorder o'.order (s₁.db.tasksOf x.id) ↔ t ∈ s₁.db.tasksOf x.id :=
        fun t => Table.mem_reorder
      generalize htasks : Table.reorder o'.order (s₁.db.tasksOf x.id) = tasks at hmem
      show (queueMode cfg).Reaches (Event.run hid) (FinalizeReturned s₁ hid x.id k)
        (State.perform _ hid o'.now (.goto (finalizeTasks x k (Table.reorder _ (s₁.db.tasksOf x.id)))))
      rw [htasks, finalizeTasks]
      have hresume : s₁.db.Finalized x.id → ∀ pc, pc = k.resume →
          (queueMode cfg).Reaches (Event.run hid) (FinalizeReturned s₁ hid x.id k)
            (State.perform { s₁.move hid (.finalizeSelect x k) with clock := o.now } hid o'.now
              (.goto pc)) := by
        rintro hfin _ rfl
        exact .now ⟨State.move_pc hpc₂ _, rfl, rfl, rfl, hfin, fun _ => rfl⟩
      have hne : ¬ tasks.isEmpty = true → s₁.db.tasksOf x.id ≠ [] := by
        rintro hempty hnil
        rw [List.isEmpty_iff] at hempty
        exact hempty (List.eq_nil_iff_forall_not_mem.2 fun t ht => by simpa [hnil] using (hmem t).1 ht)
      have hterminal : ¬ tasks.any (fun t => !t.status.isTerminal) = true →
          ∀ t ∈ s₁.db.tasksOf x.id, t.status.isTerminal = true := by
        intro hopen t ht
        by_contra hs
        exact hopen (List.any_eq_true.2 ⟨t, (hmem t).2 ht, by simpa using hs⟩)
      split_ifs with hempty hopen hall
      · refine hresume (fun y hy hid' _ => .inl ?_) _ rfl
        rw [List.isEmpty_iff] at hempty
        exact List.eq_nil_iff_forall_not_mem.2 fun t ht => by simpa [hempty] using (hmem t).2 ht
      · refine hresume (fun y hy hid' _ => .inr ?_) _ rfl
        obtain ⟨t, ht, hs⟩ := List.any_eq_true.1 hopen
        exact ⟨t, (hmem t).1 ht, by simpa using hs⟩
      · exact load_reaches rfl (hne hempty) (hterminal hopen) _ _ _ (State.move_pc hpc₂ _) rfl rfl
      · exact finish_reaches (u := fun o => .failFinished (failureSummary tasks)
          (msBetween x.startedAt o.now) (sumTokens tasks) (sumCosts tasks)) (State.move_pc hpc₂ _)
          (by rintro ⟨⟩) (fun _ => rfl) (fun _ _ => rfl) (fun _ _ _ heq => by cases heq) rfl rfl rfl
          (hne hempty) (hterminal hopen)

/-! ## The whole call -/

/-- A call for an execution that exists gets through its loop and through `_finalize`. -/
theorem call_reaches (hx : ∃ x ∈ s.db.executions, x.id = e)
    (hindex : ((s.db.tasksOf e).map Task.orderIndex).Nodup)
    (hpc : s.handlers[hid]? = some (.scheduleGet e k)) :
    (queueMode cfg).Reaches (Event.run hid)
      (fun s' => ∃ s₁, Looped s hid e k s₁ ∧ FinalizeReturned s₁ hid e k s') s := by
  refine reaches_step hpc nofun fun o => ?_
  obtain ⟨x, hx, hid'⟩ := hx
  rw [Pc.act, Table.find?_eq_some_iff.2 ⟨hx, hid'⟩]
  have hselect : (queueMode cfg).Reaches (Event.run hid) (Looped s hid e k)
      (s.perform hid o.now (.goto (.scheduleSelect e k))) :=
    select_reaches hindex (State.move_pc hpc _) (Passing.refl s.db e)
      (Redis.enqueueAll_nil s.redis).symm
  refine hselect.trans fun s₁ hlooped => ?_
  exact (finalize_reaches hlooped.1).trans fun s' hreturned => .now ⟨s₁, hlooped, hreturned⟩

/-- A call that finds nothing to decide and nothing to finalize changes nothing. -/
theorem idle_call_reaches (hindex : ((s.db.tasksOf e).map Task.orderIndex).Nodup)
    (hstable : s.db.Stable e) (hfin : s.db.Finalized e)
    (hpc : s.handlers[hid]? = some (.scheduleGet e k)) :
    (queueMode cfg).Reaches (Event.run hid)
      (fun s' => s'.handlers[hid]? = some k.resume ∧ s'.db = s.db ∧ s'.redis = s.redis) s := by
  by_cases hx : ∃ x ∈ s.db.executions, x.id = e
  · refine (call_reaches hx hindex hpc).trans fun s' ⟨s₁, hlooped, hreturned⟩ => .now ?_
    obtain ⟨-, -, marked, hpassing, hredis⟩ := hlooped
    obtain ⟨hdb, rfl⟩ := hpassing.stable hstable
    refine ⟨hreturned.pc, ?_, ?_⟩
    · rw [hreturned.same (hdb ▸ hfin), hdb]
    · rw [hreturned.redis, hredis, Redis.enqueueAll_nil]
  · refine reaches_step hpc nofun fun o => ?_
    have hnone : s.db.executions.find? e = none :=
      Table.find?_eq_none_iff.2 fun x hx' hid' => hx ⟨x, hx', hid'⟩
    rw [Pc.act, hnone]
    exact .now ⟨State.move_pc hpc _, rfl, rfl⟩

/-- The tasks that were not FAILED in `db` and are in `db'`. -/
def newlyFailed (db db' : Db) : Set TaskId :=
  {tid | ∃ t ∈ db.tasks, ∃ t' ∈ db'.tasks, t.id = tid ∧ t'.id = tid ∧ t.status ≠ .failed ∧
    t'.status = .failed}

/-- What a call does to the task rows and to the queue, from `s` to `s'`. -/
structure Scheduled (s s' : State) (e : ExecutionId) (pushed : List TaskId) : Prop where
  /-- It fails the least set of tasks that the cascade takes along. -/
  failed : newlyFailed s.db s'.db = (s.db.cascade e).lfp
  /-- It enqueues each task that can start once, and no other. -/
  startable : ∀ tid, tid ∈ pushed ↔ ∃ t ∈ s.db.tasksOf e, t.id = tid ∧ s.db.Startable t
  once : pushed.Nodup
  redis : s'.redis = s.redis.enqueueAll pushed
  enqueued : ∀ t ∈ s.db.tasks, t.id ∈ pushed → ∃ now, TaskUpdate.markEnqueued.set now t ∈ s'.db.tasks
  /-- It leaves all other rows as they are. -/
  others : ∀ t ∈ s.db.tasks, t.id ∉ pushed → t.id ∉ newlyFailed s.db s'.db → t ∈ s'.db.tasks
  noNew : ∀ t' ∈ s'.db.tasks, ∃ t ∈ s.db.tasks, t.id = t'.id
  results : s'.db.results = s.db.results

theorem Scheduled.of_passing (h : Passing s.db db e marked) (hstable : db.Stable e)
    (htasks : s'.db.tasks = db.tasks) (hresults : s'.db.results = db.results)
    (hredis : s'.redis = s.redis.enqueueAll marked) : Scheduled s s' e marked := by
  have hfailed : newlyFailed s.db s'.db = s.db.skips e := by
    ext tid
    constructor
    · rintro ⟨t, ht, t', ht', rfl, hid, hne, hs⟩
      rw [htasks] at ht'
      obtain ⟨v, hv, hp⟩ := h.rows t ht
      obtain rfl := Table.eq_of_key_eq hv ht' (hp.id_eq.trans hid.symm)
      exact (hp.failed hs).resolve_left hne
    · intro hskip
      obtain ⟨t, ht, rfl, hund, -⟩ := Db.mem_skips.1 hskip
      obtain ⟨hmem, -⟩ := Db.mem_tasksOf.1 ht
      obtain ⟨t', ht', hp⟩ := h.rows t hmem
      obtain ⟨now, rfl⟩ := (h.complete hstable hmem ht' hp).1 hskip
      refine ⟨t, hmem, TaskUpdate.skipTask.set now t, ?_, rfl, rfl, ?_, rfl⟩
      · rw [htasks]
        exact ht'
      · rw [hund.1]
        nofun
  constructor
  case failed => exact hfailed
  case startable =>
    intro tid
    constructor
    · intro hmem
      obtain ⟨t, ht, rfl⟩ := h.known tid hmem
      obtain ⟨t', ht', hp⟩ := h.rows t ht
      cases hp with
      | kept hno | skipped now hno => exact absurd hmem hno
      | marked now _ he hstart => exact ⟨t, Db.mem_tasksOf.2 ⟨ht, he⟩, rfl, hstart⟩
    · rintro ⟨t, ht, rfl, hstart⟩
      obtain ⟨hmem, he⟩ := Db.mem_tasksOf.1 ht
      obtain ⟨t', ht', hp⟩ := h.rows t hmem
      exact (h.complete hstable hmem ht' hp).2 he hstart
  case once => exact h.nodup
  case redis => exact hredis
  case enqueued =>
    intro t ht hmem
    obtain ⟨t', ht', hp⟩ := h.rows t ht
    cases hp with
    | kept hno | skipped now hno => exact absurd hmem hno
    | marked now => exact ⟨now, htasks ▸ ht'⟩
  case others =>
    intro t ht hno hnot
    obtain ⟨t', ht', hp⟩ := h.rows t ht
    cases hp with
    | kept => exact htasks ▸ ht'
    | skipped now _ hskip => exact absurd (hfailed ▸ hskip) hnot
    | marked now hmem => exact absurd hmem hno
  case noNew =>
    intro t' ht'
    obtain ⟨t, ht, hp⟩ := h.origin t' (htasks ▸ ht')
    exact ⟨t, ht, hp.id_eq.symm⟩
  case results => rw [hresults, h.results]

/-- One call of `schedule_execution` that nobody interferes with, on rows with different positions and
    whatever the order they are read in: it returns; it has failed exactly the least set of tasks the
    cascade takes along, enqueued exactly those whose dependencies are COMPLETED, and changed no other
    row; and any call after it returns without having written anything. -/
theorem schedule_fixpoint (hx : ∃ x ∈ s.db.executions, x.id = e)
    (hindex : ((s.db.tasksOf e).map Task.orderIndex).Nodup)
    (hpc : s.handlers[hid]? = some (.scheduleGet e k)) (os : Nat → Oracle) :
    ∃ n s' pushed, (queueMode cfg).follow (Event.run hid) os n s = some s' ∧
      s'.handlers[hid]? = some k.resume ∧ Scheduled s s' e pushed ∧
      ∀ (u : State) (hid' : Nat) (k' : ScheduleCaller) (os' : Nat → Oracle), u.db = s'.db →
        u.redis = s'.redis → u.handlers[hid']? = some (.scheduleGet e k') →
          ∃ n' u', (queueMode cfg).follow (Event.run hid') os' n' u = some u' ∧
            u'.handlers[hid']? = some k'.resume ∧ u'.db = s'.db ∧ u'.redis = s'.redis := by
  have hcall : (queueMode cfg).Reaches (Event.run hid)
      (fun s' => ∃ s₁, Looped s hid e k s₁ ∧ FinalizeReturned s₁ hid e k s') s := call_reaches hx hindex hpc
  obtain ⟨n, s', hfollow, s₁, ⟨-, hstable, marked, hpassing, hredis⟩, hreturned⟩ := hcall.follow os
  have hscheduled : Scheduled s s' e marked :=
    .of_passing hpassing hstable hreturned.tasks hreturned.results (hreturned.redis.trans hredis)
  have hrows : s'.db.tasksOf e = s₁.db.tasksOf e := by
    rw [Db.tasksOf, Db.tasksOf, hreturned.tasks]
  have hstable' : s'.db.Stable e := by
    rw [Db.Stable, hrows, hreturned.tasks]
    exact hstable
  refine ⟨n, s', marked, hfollow, hreturned.pc, hscheduled, ?_⟩
  intro u hid' k' os' hdb hredis' hpc'
  have hindex' : ((u.db.tasksOf e).map Task.orderIndex).Nodup := by
    rw [hdb, hrows, hpassing.index]
    exact hindex
  have hidle : (queueMode cfg).Reaches (Event.run hid')
      (fun u' => u'.handlers[hid']? = some k'.resume ∧ u'.db = u.db ∧ u'.redis = u.redis) u :=
    idle_call_reaches hindex' (hdb ▸ hstable') (hdb ▸ hreturned.finalized) hpc'
  obtain ⟨n', u', hfollow', hpc'', hdb', hredis''⟩ := hidle.follow os'
  exact ⟨n', u', hfollow', hpc'', hdb'.trans hdb, hredis''.trans hredis'⟩

/-- A task row for the example. -/
def exampleTask (id : TaskId) (status : TaskStatus) (dependsOn : List Int) : Task where
  id := id
  executionId := 1
  agentType := .research
  description := ""
  status := status
  orderIndex := id
  dependsOn := dependsOn
  enqueued := status ≠ .pending
  updatedAt := 0

/-- A FAILED task with a cascade behind it, two tasks in a cycle, and one with no dependency in range. -/
def exampleState : State where
  db :=
    { executions := ⟨[{ id := 1, userRequest := "", status := .running, updatedAt := 0 }], by decide⟩
      tasks := ⟨[exampleTask 0 .pending [2], exampleTask 1 .failed [], exampleTask 2 .pending [1, 1],
        exampleTask 3 .pending [4], exampleTask 4 .pending [3], exampleTask 5 .pending [9]],
        by decide⟩ }
  handlers := [.scheduleGet 1 .executeTask]

theorem schedule_fixpoint_example :
    ∃ n s' pushed, (queueMode (fallbackConfig {})).follow (Event.run 0) (fun _ => { now := 0 }) n
        exampleState = some s' ∧ s'.handlers[0]? = some .done ∧ 5 ∈ pushed ∧
      s'.redis = exampleState.redis.enqueueAll pushed ∧ 0 ∈ newlyFailed exampleState.db s'.db := by
  have hpc : exampleState.handlers[0]? = some (.scheduleGet 1 .executeTask) := rfl
  have hx : ∃ x ∈ exampleState.db.executions, x.id = 1 := ⟨_, List.mem_singleton.2 rfl, rfl⟩
  have hindex : ((exampleState.db.tasksOf 1).map Task.orderIndex).Nodup := by decide
  obtain ⟨n, s', pushed, hfollow, hpc', hscheduled, -⟩ :=
    schedule_fixpoint hx hindex hpc fun _ => { now := 0 }
  have hrow : ∀ i, (h : i < exampleState.db.tasks.rows.length) →
      exampleState.db.tasks.rows[i] ∈ exampleState.db.tasks := fun i h => List.getElem_mem h
  have hrange : ∀ d ∈ exampleState.db.tasks.rows, d.orderIndex ≠ 9 := by decide
  refine ⟨n, s', pushed, hfollow, hpc', (hscheduled.startable 5).2 ?_, hscheduled.redis, ?_⟩
  · refine ⟨_, Db.mem_tasksOf.2 ⟨hrow 5 (by decide), rfl⟩, rfl, ⟨rfl, rfl⟩, fun d hd hdep => ?_⟩
    exact absurd (List.mem_singleton.1 hdep.2) (hrange d hd)
  · rw [hscheduled.failed]
    refine Db.mem_skips.2 ⟨_, Db.mem_tasksOf.2 ⟨hrow 0 (by decide), rfl⟩, rfl, ⟨rfl, rfl⟩, _,
      hrow 2 (by decide), ⟨rfl, by decide⟩, .inr ?_⟩
    exact Db.mem_skips.2 ⟨_, Db.mem_tasksOf.2 ⟨hrow 2 (by decide), rfl⟩, rfl, ⟨rfl, rfl⟩, _,
      hrow 1 (by decide), ⟨rfl, by decide⟩, .inl rfl⟩

end AgenticExecution
