import AgenticExecution.Knowledge

set_option autoImplicit false

/-! # One step of a handler

`Pc.act_ok`: a handler that knows what its program point says only has admitted effects, and knows
what its next program point says once the effect happened. One lemma for each program point that
does more than pass its knowledge on. -/

namespace AgenticExecution

/-! ## The outcome of an act -/

/-- Where the handler goes on. -/
def Act.next (db : Db) (r : Redis) : Act → Pc
  | .goto pc => pc
  | .commit τ k => k (db.rowcount τ)
  | .send c k => k (r.reply c)

/-- The tables after the step. -/
def Act.dbAfter (now : Time) (db : Db) : Act → Db
  | .goto _ => db
  | .commit τ _ => db.commit now τ
  | .send .. => db

/-- The invariant admits what the step does. -/
def Act.Allowed (db : Db) : Act → Prop
  | .goto _ => True
  | .commit τ _ => db.Admits τ
  | .send c _ => c.Known db

/-- The step is allowed, and the handler knows enough to go on. -/
structure Act.Ok (now : Time) (db : Db) (r : Redis) (a : Act) : Prop where
  allowed : a.Allowed db
  next : (a.next db r).Knows (a.dbAfter now db)

variable {cfg : Config} {o : Oracle} {now : Time} {db : Db} {r : Redis}

theorem Act.Ok.goto {pc : Pc} (h : pc.Knows db) : (Act.goto pc).Ok now db r := ⟨trivial, h⟩

/-- A commit whose continuation asks for nothing about its effect. -/
theorem Act.Ok.commit {τ : Txn} {k : Nat → Pc} (ha : db.Admits τ)
    (hk : (k (db.rowcount τ)).Knows db) : (Act.commit τ k).Ok now db r :=
  ⟨ha, hk.mono (Db.le_commit ha.respects)⟩

theorem Act.Ok.send {c : Command} {k : Nat → Pc} (hc : c.Known db)
    (hk : (k (r.reply c)).Knows db) : (Act.send c k).Ok now db r := ⟨hc, hk⟩

/-! ## Looking up loaded rows -/

theorem byIndex_eq_some {tasks : List Task} {i : Int} {t : Task} (h : byIndex tasks i = some t) :
    t ∈ tasks ∧ t.orderIndex = i :=
  ⟨List.mem_reverse.1 (List.mem_of_find?_eq_some h), by simpa using List.find?_some h⟩

theorem exists_byIndex {tasks : List Task} {i : Int} (h : ∃ t ∈ tasks, t.orderIndex = i) :
    ∃ t, byIndex tasks i = some t := by
  obtain ⟨t, ht, hi⟩ := h
  exact Option.isSome_iff_exists.1 (List.find?_isSome.2 ⟨t, List.mem_reverse.2 ht, by simp [hi]⟩)

theorem mem_dependencies {tasks : List Task} {t d : Task} (h : d ∈ dependencies tasks t) :
    d ∈ tasks ∧ d.orderIndex ∈ t.dependsOn := by
  obtain ⟨i, hi, hd⟩ := List.mem_filterMap.1 h
  obtain ⟨hmem, rfl⟩ := byIndex_eq_some hd
  exact ⟨hmem, hi⟩

namespace Db

/-- A loaded row may be replaced by a later state of it that is still behind the table. -/
theorem Loaded.replace {e : ExecutionId} {seen rest : List Task} {t t' : Task}
    (hl : db.Loaded e (seen ++ t :: rest)) (hfix : t'.fixed = t.fixed) (hread : db.Read t') :
    db.Loaded e (seen ++ [t'] ++ rest) := by
  have hid : t'.id = t.id := congrArg (·.1) hfix
  constructor
  case nodup =>
    have := hl.nodup
    simpa [hid] using this
  case read =>
    intro u hu
    have he : t'.executionId = e :=
      (congrArg (·.2.1) hfix).trans (hl.read t (by simp)).1
    rcases List.mem_append.1 hu with hu | hu
    · rcases List.mem_append.1 hu with hu | hu
      · exact hl.read u (by simp [hu])
      · obtain rfl := List.mem_singleton.1 hu
        exact ⟨he, hread⟩
    · exact hl.read u (by simp [hu])
  case complete =>
    intro u hu he
    obtain ⟨v, hv, hle⟩ := hl.complete u hu he
    rcases List.mem_append.1 hv with hv | hv
    · exact ⟨v, by simp [hv], hle⟩
    · rcases List.mem_cons.1 hv with rfl | hv
      · exact ⟨t', by simp, hread.le_of_mem hu (hle.id.trans hid.symm)⟩
      · exact ⟨v, by simp [hv], hle⟩

theorem Loaded.shift {e : ExecutionId} {seen rest : List Task} {t : Task}
    (hl : db.Loaded e (seen ++ t :: rest)) : db.Loaded e (seen ++ [t] ++ rest) := by
  simpa using hl

/-- The loaded dependency of a position is a read of the task at that position. -/
theorem Loaded.dependency (hwf : db.WellFormed) {e : ExecutionId} {rows : List Task}
    (hl : db.Loaded e rows) {t d : Task} (ht : t.executionId = e) (hd : d ∈ db.tasks)
    (hdep : t.DependsOn d) :
    ∃ d₀ ∈ dependencies rows t, byIndex rows d.orderIndex = some d₀ ∧ Task.Le d₀ d := by
  obtain ⟨v, hv, hle⟩ := hl.complete d hd (hdep.1.trans ht)
  obtain ⟨d₀, hd₀⟩ := exists_byIndex ⟨v, hv, hle.orderIndex.symm⟩
  obtain ⟨hmem, hidx⟩ := byIndex_eq_some hd₀
  obtain ⟨he₀, u, hu, hle₀⟩ := hl.read d₀ hmem
  have hud : u = d := hwf.index u hu d hd
    (by rw [hle₀.executionId, he₀, hdep.1, ht]) (by rw [hle₀.orderIndex, hidx])
  exact ⟨d₀, List.mem_filterMap.2 ⟨d.orderIndex, hdep.2, hd₀⟩, hd₀, hud ▸ hle₀⟩

end Db

/-! ## schedule_execution -/

theorem verdict_skip {rows : List Task} {t : Task} (h : verdict rows t = .skip) :
    ∃ d ∈ dependencies rows t, d.status = .failed := by
  unfold verdict at h
  split at h
  · next hany => simpa using hany
  · split at h <;> simp at h

/-- A pass only skips a task with a FAILED dependency. -/
theorem Db.Loaded.failed_dependency {e : ExecutionId} {rows : List Task} {t u : Task}
    (hl : db.Loaded e rows) (ht : t.executionId = e) (hle : Task.Le t u)
    (hv : verdict rows t = .skip) : ∃ d ∈ db.tasks, u.DependsOn d ∧ d.status = .failed := by
  obtain ⟨d, hd, hds⟩ := verdict_skip hv
  obtain ⟨hmem, hidx⟩ := mem_dependencies hd
  obtain ⟨hde, d', hd', hled⟩ := hl.read d hmem
  exact ⟨d', hd', Task.DependsOn.to_le hle hled ⟨hde.trans ht.symm, hidx⟩, hled.failed hds⟩

/-- The cascade: the pass's own copy of the row is FAILED, and so is the stored one, even when the
    update matched nothing, since a task with a failed dependency can only have been skipped. -/
theorem read_skipTask (hwf : db.WellFormed) {e : ExecutionId} {rows : List Task} {t : Task}
    (hl : db.Loaded e rows) (ht : t ∈ rows) (hv : verdict rows t = .skip) :
    (db.updateTask now t.id .skipTask).Read (TaskUpdate.skipTask.set now t) := by
  obtain ⟨he, u, hu, hle⟩ := hl.read t ht
  by_cases hs : u.status = .pending
  · exact ⟨_, Db.set_mem_updateTask hu hle.id (by simp [TaskUpdate.guard, hs]), hle.fixed,
      fun _ => rfl, fun _ => nofun, fun _ => rfl, nofun⟩
  · have henq := (hwf.rows u hu).active hs
    have hfailed : u.status = .failed := by
      by_contra hne
      obtain ⟨d, hd, hdep, hds⟩ := hl.failed_dependency he hle hv
      have := (hwf.rows u hu).ready henq hne d hd hdep
      rw [hds] at this
      cases this
    exact ⟨u, Db.mem_updateTask_of_not hu fun _ => by simp [TaskUpdate.guard, hs], hle.fixed,
      fun _ => henq, fun _ => hs, fun _ => hfailed, nofun⟩

theorem read_markEnqueued {t : Task} (ht : db.Read t) :
    (db.updateTask now t.id .markEnqueued).Read (TaskUpdate.markEnqueued.set now t) ∧
      (db.updateTask now t.id .markEnqueued).Enqueued t.id := by
  obtain ⟨u, hu, hle⟩ := ht
  by_cases henq : u.enqueued = true
  · have hmem : u ∈ (db.updateTask now t.id .markEnqueued).tasks :=
      Db.mem_updateTask_of_not hu fun _ => by simp [TaskUpdate.guard, henq]
    exact ⟨⟨u, hmem, hle.fixed, fun _ => henq, hle.claimed, hle.failed, hle.completed⟩,
      u, hmem, hle.id, henq⟩
  · have hmem : TaskUpdate.markEnqueued.set now u ∈ (db.updateTask now t.id .markEnqueued).tasks :=
      Db.set_mem_updateTask hu hle.id (by simp [TaskUpdate.guard, henq])
    exact ⟨⟨_, hmem, hle.fixed, fun _ => rfl, hle.claimed, hle.failed, hle.completed⟩,
      _, hmem, hle.id, rfl⟩

/-- A pass only enqueues a task whose dependencies are all COMPLETED. -/
theorem admits_markEnqueued (hwf : db.WellFormed) {e : ExecutionId} {rows : List Task} {t : Task}
    (hl : db.Loaded e rows) (ht : t ∈ rows) (hv : verdict rows t = .enqueue) :
    db.Admits (.updateTask t.id .markEnqueued) := by
  intro t' ht' hid d hd hdep
  obtain ⟨he, hread⟩ := hl.read t ht
  have hle := hread.le_of_mem ht' hid
  obtain ⟨d₀, hd₀, -, hle₀⟩ :=
    hl.dependency hwf he hd (hdep.of_le hle (.refl d))
  have hs : d₀.status = .completed := by
    unfold verdict at hv
    split at hv
    · simp at hv
    · split at hv
      · next h => simpa using List.all_eq_true.1 h d₀ hd₀
      · simp at hv
  exact (hle₀.completed hs).1

theorem scanAct_ok (hwf : db.WellFormed) {e : ExecutionId} {k : ScheduleCaller}
    {seen rest : List Task} {changed : Bool}
    (hk : (Pc.scheduleScan e k seen rest changed).Knows db) :
    (scanAct o e k seen rest changed).Ok o.now db r := by
  obtain ⟨hp, hl, hk⟩ := hk
  cases rest with
  | nil => cases changed <;> exact .goto ⟨hp, hk⟩
  | cons t rest =>
      have ht : t ∈ seen ++ t :: rest := by simp
      have hwait : (Act.goto (.scheduleScan e k (seen ++ [t]) rest changed)).Ok o.now db r :=
        .goto ⟨hp, hl.shift, hk⟩
      rw [scanAct]
      split
      · exact hwait
      · cases hv : verdict (seen ++ t :: rest) t with
        | wait => exact hwait
        | skip =>
            have hle := Db.le_updateTask db o.now t.id .skipTask
            refine ⟨trivial, hp.mono hle, ?_, hk.mono hle⟩
            exact (hl.mono hle hp).replace rfl (read_skipTask hwf hl ht hv)
        | enqueue =>
            have hle := Db.le_updateTask db o.now t.id .markEnqueued
            obtain ⟨hread, henq⟩ : (db.updateTask o.now t.id .markEnqueued).Read
                (TaskUpdate.markEnqueued.set o.now t) ∧ _ := read_markEnqueued (hl.read t ht).2
            have hl' : Db.Loaded _ e (seen ++ [TaskUpdate.markEnqueued.set o.now t] ++ rest) :=
              (hl.mono hle hp).replace rfl hread
            refine ⟨admits_markEnqueued hwf hl ht hv, ?_⟩
            simp only [Act.next, Act.dbAfter]
            split
            · exact ⟨hp.mono hle, hl', henq, hk.mono hle⟩
            · exact ⟨hp.mono hle, hl', hk.mono hle⟩

/-! ## _finalize -/

theorem finalizeTasks_knows {x : Execution} {k : ScheduleCaller} {tasks : List Task}
    (hp : db.Planned x.id) (hreq : db.Requested x.id x.userRequest) (hl : db.Loaded x.id tasks)
    (hk : k.Knows db) : (finalizeTasks x k tasks).Knows db := by
  unfold finalizeTasks
  split
  · exact k.resume_knows hk
  · split
    · exact k.resume_knows hk
    · next hterm =>
        split
        · next hall =>
            exact ⟨⟨hp, hreq, hl, by simpa using hall⟩, ⟨[], rfl, .nil⟩, hk⟩
        · exact ⟨hp, hl, by simpa using hterm, hk⟩

/-- A loaded COMPLETED row has a stored result. -/
theorem exists_result (hwf : db.WellFormed) {t : Task} (hread : db.Read t)
    (hs : t.status = .completed) :
    ∃ res, db.results.find? t.id = some res ∧ res ∈ db.results ∧ res.taskId = t.id := by
  obtain ⟨u, hu, hle⟩ := hread
  obtain ⟨res, hres, hid⟩ := (hwf.rows u hu).stored (hle.completed hs).1
  rw [hle.id] at hid
  exact ⟨res, Table.find?_eq_some_iff.2 ⟨hres, hid⟩, hres, hid⟩

theorem finalizeLoad_ok (hwf : db.WellFormed) {x : Execution} {k : ScheduleCaller}
    {tasks rest : List Task} {outcomes : List TaskOutcome}
    (hk : (Pc.finalizeLoad x k tasks rest outcomes).Knows db) :
    ((Pc.finalizeLoad x k tasks rest outcomes).act cfg o db r).Ok now db r := by
  obtain ⟨hf, ⟨seen, hseen, hout⟩, hk⟩ := hk
  cases rest with
  | nil =>
      rw [List.append_nil] at hseen
      exact .goto ⟨hf, hseen ▸ hout, hk⟩
  | cons t rest =>
      have ht : t ∈ tasks :=
        (List.perm_insertionSort _ tasks).mem_iff.1 (show t ∈ sortByIndex tasks by simp [hseen])
      obtain ⟨res, hfind, hres, hid⟩ :=
        exists_result hwf (hf.loaded.read t ht).2 (hf.completed t ht)
      refine .goto ⟨hf, ⟨seen ++ [t], by simpa using hseen, ?_⟩, hk⟩
      exact List.rel_append hout (.cons ⟨res, hres, hid, by rw [hfind]⟩ .nil)

/-! ## execute_task -/

theorem taskClaim_ok (hwf : db.WellFormed) {tid : TaskId} (hk : (Pc.taskClaim tid).Knows db) :
    ((Pc.taskClaim tid).act cfg o db r).Ok now db r := by
  have ha : db.Admits (.updateTask tid .claimTask) := hk
  refine ⟨ha, ?_⟩
  simp only [Pc.act, Act.next, Act.dbAfter]
  split
  · next hn =>
      obtain ⟨t, ht, rfl, hg⟩ := Table.rowcount_eq_one_iff.1 hn
      have hmem : TaskUpdate.claimTask.set now t ∈ (db.updateTask now t.id .claimTask).tasks :=
        Db.set_mem_updateTask ht rfl hg
      have hwf' : (db.updateTask now t.id .claimTask).WellFormed := hwf.commit ha
      have henq : t.enqueued = true := by
        obtain ⟨u, hu, hid, henq⟩ := hk
        rwa [Table.eq_of_key_eq hu ht hid] at henq
      exact ⟨_, hmem, rfl, nofun, (hwf'.rows _ hmem).ready henq nofun⟩
  · trivial

theorem taskRefresh_ok {tid : TaskId} (hk : (Pc.taskRefresh tid).Knows db) :
    ((Pc.taskRefresh tid).act cfg o db r).Ok now db r := by
  simp only [Pc.act]
  split
  · exact .goto trivial
  · next task hfind =>
      obtain ⟨hmem, rfl⟩ := Table.find?_eq_some_iff.1 hfind
      exact .goto ⟨hk, Db.read_of_mem hmem⟩

/-- The dependencies of a claimed task, as its handler reads them, are COMPLETED. -/
theorem Db.Works.dependency {t d : Task} (hw : db.Works t) (hd : d ∈ db.tasks)
    (hdep : t.DependsOn d) : d.status = .completed := by
  obtain ⟨⟨u, hu, hid, -, hdeps⟩, hread⟩ := hw
  exact hdeps d hd (hdep.to_le (hread.le_of_mem hu hid) (.refl d))

theorem contextSelect_ok {t : Task} (hk : (Pc.contextSelect t).Knows db) :
    ((Pc.contextSelect t).act cfg o db r).Ok now db r := by
  simp only [Pc.act]
  split
  · next hnil => exact .goto ⟨hk, [], rfl, by rw [hnil]; exact .nil⟩
  · refine .goto ⟨hk, db.loaded_reorder _ _, fun d hd hdep => ?_, [], rfl, .nil⟩
    exact hk.dependency (Db.mem_tasksOf.1 (Table.mem_reorder.1 hd)).1 hdep

/-- The loop of `_dependency_context` finds every dependency with its result. -/
theorem contextLoad_ok (hwf : db.WellFormed) {t : Task} {rows : List Task} {rest : List Int}
    {parts : List String} (hk : (Pc.contextLoad t rows rest parts).Knows db) :
    ((Pc.contextLoad t rows rest parts).act cfg o db r).Ok now db r := by
  obtain ⟨hw, hl, hc, seen, hseen, hparts⟩ := hk
  cases rest with
  | nil =>
      rw [List.append_nil] at hseen
      exact .goto ⟨hw, parts, rfl, hseen ▸ hparts⟩
  | cons i rest =>
      obtain ⟨t', ht', hle⟩ := hw.2
      have hi : i ∈ t.dependsOn := by simp [hseen]
      obtain ⟨-, d, hd, hde, rfl⟩ := hwf.depends t' ht' i (hle.dependsOn ▸ hi)
      obtain ⟨d₀, -, hfind, hled⟩ :=
        hl.dependency hwf rfl hd ⟨hde.trans hle.executionId, hi⟩
      have hs₀ : d₀.status = .completed :=
        hc d₀ (byIndex_eq_some hfind).1
          ⟨hled.executionId ▸ hde.trans hle.executionId, hled.orderIndex ▸ hi⟩
      obtain ⟨res, hres, hmem, hid⟩ := exists_result hwf ⟨d, hd, hled⟩ hs₀
      have hstep : contextStep db rows d.orderIndex parts = parts ++ [contextPart d₀ res] := by
        simp [contextStep, hfind, hs₀, hres]
      simp only [Pc.act, hstep]
      refine .goto ⟨hw, hl, hc, seen ++ [d.orderIndex], by simpa using hseen, ?_⟩
      refine List.rel_append hparts (.cons ⟨d, hd, hde.trans hle.executionId, rfl,
        (hled.completed hs₀).1, res, hmem, hid.trans hled.id.symm, ?_⟩ .nil)
      rw [contextPart, contextPart, hled.agentType]

theorem retryAct_ok (hwf : db.WellFormed) {t : Task} {error : String} {k : RetryCaller}
    (hk : (Pc.retryOrFail t error k).Knows db) :
    (retryAct cfg.settings o t error k).Ok now db r := by
  obtain ⟨-, hclaimed, -, hk⟩ := hk
  unfold retryAct
  dsimp only
  split
  · split
    · exact .goto trivial
    · refine .commit trivial ?_
      split
      · exact ⟨hclaimed.enqueued hwf, hk⟩
      · exact k.resume_knows hk
  · refine .commit trivial ?_
    split
    · exact hk
    · exact k.resume_knows hk

/-! ## All handlers -/

/-- A handler's next effect is admitted, and the handler knows enough to go on after it. Only the
    batch insert needs more than the handler's own knowledge: that no rows are there yet. -/
theorem Pc.act_ok (hwf : db.WellFormed) (hr : r.Known db) {pc : Pc} (hk : pc.Knows db)
    (hslot : ∀ e plan, pc = .planInsert e plan → ¬ db.Planned e) :
    (pc.act cfg o db r).Ok o.now db r := by
  cases pc with
  | done => exact .goto trivial
  | enqueuePlan e => exact .send hk trivial
  | planProvider e => exact .goto hk
  | planGet e =>
      simp only [Pc.act]
      split
      · exact .goto trivial
      · next x hfind =>
          obtain ⟨hx, hid⟩ := Table.find?_eq_some_iff.1 hfind
          exact .goto ⟨x, hx, hid, rfl⟩
  | planGuard e userRequest =>
      refine .commit (by rintro ⟨⟩) ?_
      split
      · exact hk
      · trivial
  | planLlm e userRequest =>
      obtain ⟨x, hx, hid, -⟩ := hk
      simp only [Pc.act]
      split
      · exact .goto trivial
      · exact .goto ⟨x, hx, hid⟩
  | planInsert e plan =>
      refine ⟨⟨hk, hslot e plan rfl⟩, ?_⟩
      have hpos : 0 < plan.subtasks.length := List.length_pos_iff.2 plan.ne_nil
      exact ⟨_, Db.mem_insertTasks.2 (.inr ⟨0, plan.subtasks[0], List.getElem?_eq_getElem hpos, rfl⟩),
        rfl⟩
  | planRunning e => exact .commit (by rintro ⟨⟩) hk
  | planStarted e => exact .commit trivial ⟨hk, trivial⟩
  | planFail e error => exact .commit trivial trivial
  | taskProvider tid => exact .goto hk
  | taskGet tid =>
      simp only [Pc.act]
      split
      · exact .goto trivial
      · exact .goto hk
  | taskClaim tid => exact taskClaim_ok hwf hk
  | taskStarted tid => exact .commit trivial hk
  | taskRefresh tid => exact taskRefresh_ok hk
  | taskCheck t =>
      simp only [Pc.act]
      split
      · next res hfind =>
          obtain ⟨hres, hid⟩ := Table.find?_eq_some_iff.1 hfind
          exact .goto ⟨hk, res, hres, hid⟩
      · exact .goto hk
  | taskStored t => exact .commit hk.2 ⟨hk.1.2.planned, trivial⟩
  | contextSelect t => exact contextSelect_ok hk
  | contextLoad t rows rest parts => exact contextLoad_ok hwf hk
  | agentStart t context => exact .goto hk
  | agentRun t context =>
      simp only [Pc.act]
      split
      · exact .goto hk.1
      · exact .goto hk.1
  | taskRollback t error =>
      simp only [Pc.act]
      split
      · next fresh hfind =>
          obtain ⟨hmem, hid⟩ := Table.find?_eq_some_iff.1 hfind
          exact .goto ⟨Db.read_of_mem hmem, hid ▸ hk.1.claimed,
            (hk.2.le_of_mem hmem hid).executionId.symm, hk.2.planned⟩
      · exact .goto ⟨hk.2.planned, trivial⟩
  | persist t output =>
      simp only [Pc.act]
      split
      · next res hfind =>
          obtain ⟨hres, hid⟩ := Table.find?_eq_some_iff.1 hfind
          exact .goto ⟨hk, res, hres, hid⟩
      · next hfind => exact .commit ⟨hk.1.claimed, hfind⟩ ⟨hk.2.planned, trivial⟩
  | persistUpdate t stamp metrics => exact .commit hk.2 ⟨hk.1.2.planned, trivial⟩
  | retryOrFail t error k => exact retryAct_ok hwf hk
  | retrySchedule tid nextAt k => exact .send hk.1 (k.resume_knows hk.2)
  | retryDeadLetter entry k => exact .send trivial (k.resume_knows hk)
  | scheduleGet e k =>
      simp only [Pc.act]
      split
      · exact .goto (k.resume_knows hk.2)
      · exact .goto hk
  | scheduleSelect e k => exact .goto ⟨hk.1, db.loaded_reorder _ _, hk.2⟩
  | scheduleScan e k seen rest changed => exact scanAct_ok hwf hk
  | schedulePush e k seen rest tid => exact .send hk.2.2.1 ⟨hk.1, hk.2.1, hk.2.2.2⟩
  | finalizeGet e k =>
      simp only [Pc.act]
      split
      · exact .goto (k.resume_knows hk.2)
      · next x hfind =>
          obtain ⟨hx, rfl⟩ := Table.find?_eq_some_iff.1 hfind
          exact .goto ⟨hk.1, ⟨x, hx, rfl, rfl⟩, hk.2⟩
  | finalizeSelect x k =>
      exact .goto (finalizeTasks_knows hk.1 hk.2.1 (db.loaded_reorder _ _) hk.2.2)
  | finalizeLoad x k tasks rest outcomes => exact finalizeLoad_ok hwf hk
  | finalizeComplete x k tasks outcomes => exact .commit trivial (k.resume_knows hk.2.2)
  | finalizeFail x k tasks => exact .commit trivial (k.resume_knows hk.2.2.2)
  | promoteSelect => exact .goto trivial
  | promoteNext due =>
      cases due with
      | nil => exact .goto trivial
      | cons tid due =>
          refine .send trivial ?_
          split
          · next hn =>
              have hsome : (r.delayed.find? tid).isSome = true := by
                by_contra hne
                simp [Redis.reply, hne] at hn
              obtain ⟨entry, hentry, rfl⟩ := Table.find?_isSome_iff.1 hsome
              exact hr.delayed entry hentry
          · trivial
  | promotePush tid due => exact .send hk trivial
  | recoverSelect =>
      refine .goto (recoverNext_knows (fun t ht => ?_) (by simp))
      obtain ⟨hmem, hstale⟩ := List.mem_filter.1 (Table.mem_reorder.1 ht)
      refine ⟨Db.read_of_mem hmem, t, hmem, rfl, ?_⟩
      intro hs
      simp [isStale, hs] at hstale
  | recoverAffected affected =>
      simp only [Pc.act]
      split
      · exact .goto trivial
      · next e rest hcons =>
          have hmem : ∀ e' ∈ e :: rest, db.Planned e' := fun e' he' =>
            hk e' (Table.mem_reorder.1 (hcons ▸ he'))
          exact .goto ⟨hmem e List.mem_cons_self, fun e' he' => hmem e' (List.mem_cons_of_mem _ he')⟩

end AgenticExecution
