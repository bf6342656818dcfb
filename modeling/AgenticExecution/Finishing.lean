import AgenticExecution.Work

set_option autoImplicit false

/-! # Work can always be finished

Queue mode never gets into a state it cannot get out of: from every state of an undisturbed run the
handlers in progress, the consumers and the promoter alone can bring every execution and every task to
an end. Whatever is in progress goes on with agents that answer; a tariff under which a retry may bring
its claim back makes every such step cheaper, and a promoter pays for itself with the first entry it
promotes. -/

namespace AgenticExecution

variable {cfg : Config} {s s' : State} {ev : Event}

/-! ## Going on -/

/-- An event that finishes work and asks for none. -/
def Event.finishes : Event → Bool
  | .run .. | .dequeue | .promoteDue => true
  | _ => false

/-- Nothing is disturbed, and nothing is asked for. -/
def Finishing (cfg : Config) (s : State) (ev : Event) : Prop :=
  Undisturbed cfg s ev ∧ ev.finishes = true

/-- The planning model raises, and the agent answers. -/
def Oracle.finishing (now : Time) : Oracle where
  now := now
  llm := .error { typeName := "RuntimeError", message := "" }

/-- The events that are used: a run under `Oracle.finishing`, a delivery, a promoter. -/
inductive Event.GoesOn : Event → Prop
  | run (hid : Nat) (now : Time) : GoesOn (.run hid (.finishing now))
  | dequeue : GoesOn .dequeue
  | promoteDue : GoesOn .promoteDue

/-- Every row may be claimed once more, and so may every row a handler still reports on. -/
def Settings.openTariff (settings : Settings) (rows depends : Nat) : Tariff where
  tasks := settings.maxTasks
  rows := rows
  depends := depends
  claims status _ :=
    match status with
    | .pending | .retrying => 1
    | .running | .completed | .failed => 0
  again := 1
  -- a promoter that finds an entry is paid by it
  delayed := rows + 8
  claimed status attempts h := by cases status <;> simp_all [TaskStatus.claimable]
  finished status attempts h := by cases status <;> simp_all [TaskStatus.isTerminal]
  promoted := Nat.le_add_left 5 (rows + 3)

theorem Event.GoesOn.accepts (rows depends : Nat) (h : ev.GoesOn) :
    (cfg.settings.openTariff rows depends).Accepts cfg s ev where
  releases hid o pc hev hpc := by
    rintro task error k rfl hbudget t ht hid' hs
    exact Nat.le_add_left 1 0
  agent hid o exc hev hagent := by
    cases h with
    | run hid now =>
        obtain ⟨rfl, rfl⟩ := Event.run.inj hev
        cases hagent
    | dequeue | promoteDue => cases hev
  raise hid exc hev := by
    cases h <;> cases hev

/-- What the tariff rests on. -/
structure Open (cfg : Config) (rows depends : Nat) (s : State) : Prop where
  executions : cfg.settings.maxTasks * s.db.executions.rows.length ≤ rows
  tasks : ∀ t ∈ s.db.tasks, t.dependsOn.length ≤ depends
  plans : ∀ pc ∈ s.handlers, ∀ e plan, pc = .planInsert e plan →
    ∀ sub ∈ plan.subtasks, sub.dependsOn.length ≤ depends

/-- The dependencies a handler is about to insert. -/
def Pc.planned : Pc → Nat
  | .planInsert _ plan => (plan.subtasks.map fun sub => sub.dependsOn.length).sum
  | _ => 0

theorem Open.covers {rows depends : Nat} {E : State → Event → Prop} (h : Open cfg rows depends s)
    (hreach : (queueMode cfg).Reachable E s) : (cfg.settings.openTariff rows depends).Covers s where
  tasks := length_tasksOf_le hreach
  rows := Nat.le_trans (length_tasks_le hreach) h.executions
  delayed := by
    have hdelayed := (reachable_inv hreach).length_delayed_le
    exact Nat.le_trans hdelayed (Nat.le_trans (length_tasks_le hreach) h.executions)
  depends := h.tasks

/-- Going on plans nothing new and inserts no more than what was planned. -/
theorem Open.step {rows depends : Nat} (h : Open cfg rows depends s) (hgo : ev.GoesOn)
    (hs : s.step cfg ev = some s') : Open cfg rows depends s' where
  executions := by
    have hsubmits : ev.submits = false := by
      cases hgo <;> rfl
    rw [length_executions_step hs, hsubmits]
    exact h.executions
  tasks t' ht' := by
    cases State.stepsTo hs with
    | commit hid o pc τ k hpc hlive hact =>
        rcases Db.mem_commit ht' with ⟨hmem, -⟩ | ⟨t, ht, u, -, hg, rfl⟩ | ⟨e, plan, i, sub, rfl, hsub, rfl⟩
        · exact h.tasks t' hmem
        · exact (TaskUpdate.le hg).dependsOn ▸ h.tasks t ht
        · cases Pc.commits_of_act hact
          exact h.plans _ (List.mem_of_getElem? hpc) e plan rfl sub (List.mem_of_getElem? hsub)
    | createExecution | dequeue | promoteDue | recoverStaleTasks | move | send | redeliver | raise
      | crash => exact h.tasks t' ht'
  plans := by
    have hzero : ∀ {pc : Pc}, (∀ e, pc.plans e = 0) → ∀ e plan, pc ≠ .planInsert e plan := by
      rintro pc hz e plan rfl
      simpa [Pc.plans] using hz e
    refine State.forall_handlers (P := fun pc => ∀ e plan, pc = .planInsert e plan →
      ∀ sub ∈ plan.subtasks, sub.dependsOn.length ≤ depends) hs h.plans (fun _ _ hpc => hpc) ?_ ?_ ?_ ?_ ?_
      fun _ _ hdone => by cases hdone
    · intro pc hstart e plan heq
      refine absurd heq (hzero (fun e => ?_) e plan)
      cases hstart with
      | dequeue job | redeliver job => exact Job.handler_plans e job
      | createExecution | promoteDue | recoverStaleTasks => rfl
    · rintro hid o pc pc' rfl hpc hact - - e plan rfl
      obtain ⟨userRequest, text, -, hllm, -⟩ := planned_of_act hact
      cases hgo
      cases hllm
    · intro hid o pc τ k _ _ hcommit _ _ e plan heq
      exact absurd heq (hcommit.ne_planInsert e plan _)
    · intro hid o pc c k _ _ hsend _ _ e plan heq
      exact absurd heq (hzero (fun e => hsend.plans_eq e _) e plan)
    · intro hid exc pc _ _ _ e plan heq
      exact absurd heq (hzero (fun e => Pc.raised_plans e exc pc) e plan)

/-! ## Cheaper steps -/

section Cheaper

variable {rows depends : Nat}

/-- A step of a handler or of a consumer makes the state cheaper. -/
theorem Open.cheaper (h : Open cfg rows depends s) (hreach : (queueMode cfg).Reachable (Undisturbed cfg) s)
    (hgo : ev.GoesOn) (hworks : ev.works = true) (hs : s.step cfg ev = some s') :
    s'.potential (cfg.settings.openTariff rows depends) <
      s.potential (cfg.settings.openTariff rows depends) := by
  have hsupply : (cfg.settings.openTariff rows depends).supply ev = 0 := by
    cases hgo with
    | run | dequeue => rfl
    | promoteDue => cases hworks
  have hpay := State.potential_step (reachable_inv hreach) (h.covers hreach)
    (fun pc hpc e plan heq => length_plan_le hreach hpc heq) (hgo.accepts rows depends) hs
  rw [hsupply, hworks, Bool.toNat_true] at hpay
  omega

theorem State.live?_of_ne {hid : Nat} {pc : Pc} (hpc : s.handlers[hid]? = some pc) (hne : pc ≠ .done) :
    s.live? hid = some pc := by
  unfold State.live?
  split
  · next hdone => exact absurd (Option.some.inj (hpc.symm.trans hdone)) hne
  · exact hpc

/-- The promoter that removes an entry has paid for having been started. -/
theorem promoteNext_cheaper (rows depends : Nat) {hid : Nat} {o : Oracle} {tid : TaskId} {due : List TaskId}
    (hpc : s.handlers[hid]? = some (.promoteNext (tid :: due)))
    (hfound : (s.redis.delayed.find? tid).isSome) (hs : s.step cfg (.run hid o) = some s') :
    s'.potential (cfg.settings.openTariff rows depends) + rows + 4 ≤
      s.potential (cfg.settings.openTariff rows depends) := by
  generalize hL : cfg.settings.openTariff rows depends = L
  have hdelayed : L.delayed = rows + 8 := by
    rw [← hL]
    rfl
  have hentry := Nat.mul_le_mul_left L.delayed (Table.length_erase_of_mem hfound)
  have hs' := State.eq_perform (State.live?_of_ne hpc (by simp)) hs
  have hreply : s.redis.reply (.removeDelayed tid) = 1 := by rw [Redis.reply, if_pos hfound]
  have hset := State.potential_set (L := L) hpc (.promotePush tid due) s.db
    (s.redis.send (.removeDelayed tid)) o.now
  have hstate : s' = { s with redis := s.redis.send (.removeDelayed tid), clock := o.now,
                              handlers := s.handlers.set hid (.promotePush tid due) } := by
    rw [hs']
    simp only [Pc.act, State.perform, hreply, if_true, State.move]
  have hpot : s.potential L = L.db s.db + L.redis s.redis + s.weight L.pc := rfl
  rw [Nat.mul_succ] at hentry
  rw [hstate, hpot]
  simp only [Tariff.redis, Redis.send, Tariff.pc, List.length_cons] at hset ⊢
  omega

/-- A promoter that is started when an entry is due promotes one and has paid for itself. -/
theorem Open.promote (h : Open cfg rows depends s)
    (hreach : (queueMode cfg).Reachable (Undisturbed cfg) s) {entry : TaskId × Time}
    (hentry : entry ∈ s.redis.delayed) :
    ∃ s', (queueMode cfg).Path (Finishing cfg) s s' ∧ Open cfg rows depends s' ∧
      s'.potential (cfg.settings.openTariff rows depends) <
        s.potential (cfg.settings.openTariff rows depends) := by
  let o := Oracle.finishing entry.2
  let hid := s.handlers.length
  -- it reads what is due
  obtain ⟨tid, due, hdue⟩ : ∃ tid due, Table.reorder o.order (s.redis.due entry.2) = tid :: due := by
    have hmem : entry.1 ∈ Table.reorder o.order (s.redis.due entry.2) := by
      rw [Table.mem_reorder, Redis.due, List.mem_map]
      exact ⟨entry, List.mem_filter.2 ⟨hentry, by simp⟩, rfl⟩
    exact List.exists_cons_of_ne_nil (List.ne_nil_of_mem hmem)
  have hfound : (s.redis.delayed.find? tid).isSome := by
    have hmem : tid ∈ Table.reorder o.order (s.redis.due entry.2) := hdue ▸ List.mem_cons_self
    rw [Table.mem_reorder, Redis.due, List.mem_map] at hmem
    obtain ⟨entry', hmem, rfl⟩ := hmem
    exact Table.find?_isSome_iff.2 ⟨entry', List.mem_of_mem_filter hmem, rfl⟩
  -- the three states it goes through
  let s₁ : State := { s with handlers := s.handlers ++ [.promoteSelect] }
  let s₂ : State := { s₁ with handlers := s₁.handlers.set hid (.promoteNext (tid :: due)), clock := o.now }
  have hpc₁ : s₁.handlers[hid]? = some .promoteSelect := by simp [s₁, hid]
  have hpc₂ : s₂.handlers[hid]? = some (.promoteNext (tid :: due)) := by simp [s₂, s₁, hid]
  have hstep₁ : s.step cfg .promoteDue = some s₁ := rfl
  have hstep₂ : s₁.step cfg (.run hid o) = some s₂ := by
    have hact : Pc.promoteSelect.act cfg o s₁.db s₁.redis = .goto (.promoteNext (tid :: due)) := by
      rw [Pc.act, ← hdue]
      rfl
    rw [State.step, State.live?_of_ne hpc₁ (by simp), Option.map_some, hact]
    rfl
  obtain ⟨s₃, hstep₃⟩ : ∃ s₃, s₂.step cfg (.run hid o) = some s₃ :=
    ⟨_, by rw [State.step, State.live?_of_ne hpc₂ (by simp)]; rfl⟩
  have hquiet : ∀ {s : State} {pc : Pc}, s.handlers[hid]? = some pc → ¬ pc.Overflows cfg o →
      Finishing cfg s (.run hid o) := by
    intro s pc hpc hover
    refine ⟨fun pc' hpc' => ?_, rfl⟩
    obtain rfl := Option.some.inj (hpc.symm.trans hpc')
    exact hover
  have hgo : (Event.run hid o).GoesOn := .run hid entry.2
  have hopen₁ := h.step .promoteDue hstep₁
  have hopen₂ := hopen₁.step hgo hstep₂
  have hquiet₁ : Undisturbed cfg s .promoteDue := trivial
  have hreach₁ := hreach.step hquiet₁ hstep₁
  -- what they cost
  have hpot₁ := State.potential_step (reachable_inv hreach) (h.covers hreach)
    (fun pc hpc e plan heq => length_plan_le hreach hpc heq)
    (Event.GoesOn.promoteDue.accepts rows depends) hstep₁
  have hpot₂ := hopen₁.cheaper hreach₁ hgo rfl hstep₂
  have hpot₃ := promoteNext_cheaper rows depends hpc₂ hfound hstep₃
  have hsupply : (cfg.settings.openTariff rows depends).supply .promoteDue = rows + 2 := rfl
  refine ⟨s₃, ?_, hopen₂.step hgo hstep₃, by omega⟩
  have hpath₁ : (queueMode cfg).Path (Finishing cfg) s s₁ := .of_step ⟨hquiet₁, rfl⟩ hstep₁
  have hpath₂ : (queueMode cfg).Path (Finishing cfg) s₁ s₂ := .of_step (hquiet hpc₁ id) hstep₂
  have hpath₃ : (queueMode cfg).Path (Finishing cfg) s₂ s₃ := .of_step (hquiet hpc₂ id) hstep₃
  exact (hpath₁.trans hpath₂).trans hpath₃

end Cheaper

/-! ## The end -/

/-- Where no row asks for anything, everything is finished. -/
theorem Db.WellFormed.finished {db : Db} (hwf : db.WellFormed) (hnone : ∀ n, ¬ db.Needs n) :
    (∀ x ∈ db.executions, x.status = .completed ∨ x.status = .failed) ∧
      ∀ t ∈ db.tasks, t.status = .completed ∨ t.status = .failed := by
  have hterm : ∀ t ∈ db.tasks, t.status.isTerminal = true := by
    intro t ht
    obtain ⟨n, hn⟩ := Int.eq_ofNat_of_zero_le (hwf.nonneg t ht)
    exact hwf.all_terminal (fun _ => hnone _) (fun _ _ => hnone _) (fun _ => hnone _) n t ht hn
  refine ⟨fun x hx => ?_, fun t ht => ?_⟩
  · cases hs : x.status with
    | completed => exact .inl rfl
    | failed => exact .inr rfl
    | pending => exact absurd ⟨x, hx, rfl, hs⟩ (hnone (.job (.plan x.id)))
    | planning => exact absurd ⟨x, hx, rfl, hs⟩ (hnone (.planner x.id))
    | running => exact absurd ⟨⟨x, hx, rfl, hs⟩, fun t ht _ => hterm t ht⟩ (hnone (.finish x.id))
  · have hstatus := hterm t ht
    cases hs : t.status <;> simp_all [TaskStatus.isTerminal]

end AgenticExecution
