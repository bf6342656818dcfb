import Mathlib.Logic.Relation

set_option autoImplicit false

/-! # Labelled transition systems

A system has one initial state and partial, deterministic steps: whatever the environment decides
is part of the event. `Run` keeps the history of a run, each event beside the state it met, so that
a property may speak about the past; an environment `E` says which events may meet which states. -/

/-- A labelled transition system whose events resolve every choice of the environment. -/
structure Lts (σ ε : Type*) where
  init : σ
  step : σ → ε → Option σ

namespace Lts

variable {σ ε : Type*} {M : Lts σ ε} {E F : σ → ε → Prop}

/-- `M.Run E trace s`: from the initial state, `trace` leads to `s` (oldest entry first), and the
    environment `E` admits every event of it in the state the event met. -/
inductive Run (M : Lts σ ε) (E : σ → ε → Prop) : List (σ × ε) → σ → Prop
  | nil : Run M E [] M.init
  | snoc {trace : List (σ × ε)} {s s' : σ} {ev : ε} :
      Run M E trace s → E s ev → M.step s ev = some s' → Run M E (trace ++ [(s, ev)]) s'

/-- The states some run reaches. -/
def Reachable (M : Lts σ ε) (E : σ → ε → Prop) (s : σ) : Prop := ∃ trace, M.Run E trace s

/-- One step the environment admits. -/
def Step (M : Lts σ ε) (E : σ → ε → Prop) (s s' : σ) : Prop := ∃ ev, E s ev ∧ M.step s ev = some s'

/-- Any number of steps the environment admits. -/
def Path (M : Lts σ ε) (E : σ → ε → Prop) : σ → σ → Prop := Relation.ReflTransGen (M.Step E)

/-! ## Rules for invariants -/

theorem Run.mono (hEF : ∀ s ev, E s ev → F s ev) {trace : List (σ × ε)} {s : σ}
    (h : M.Run E trace s) : M.Run F trace s := by
  induction h with
  | nil => exact .nil
  | snoc _ hE hstep ih => exact .snoc ih (hEF _ _ hE) hstep

/-- The invariant rule: what holds at the start and survives every admitted step taken from a state
    reached by a run holds of every run. `I` may look at the history. -/
theorem Run.invariant {I : List (σ × ε) → σ → Prop} (hinit : I [] M.init)
    (hstep : ∀ trace s ev s', M.Run E trace s → I trace s → E s ev → M.step s ev = some s' →
      I (trace ++ [(s, ev)]) s')
    {trace : List (σ × ε)} {s : σ} (h : M.Run E trace s) : I trace s := by
  induction h with
  | nil => exact hinit
  | snoc hrun hE hs ih => exact hstep _ _ _ _ hrun ih hE hs

/-- The invariant rule for properties of the state alone. -/
theorem Reachable.invariant {I : σ → Prop} (hinit : I M.init)
    (hstep : ∀ s ev s', M.Reachable E s → I s → E s ev → M.step s ev = some s' → I s')
    {s : σ} (h : M.Reachable E s) : I s := by
  obtain ⟨trace, hrun⟩ := h
  exact Run.invariant (I := fun _ s => I s) hinit
    (fun trace s ev s' hr hi hE hs => hstep s ev s' ⟨trace, hr⟩ hi hE hs) hrun

theorem Run.reachable {trace : List (σ × ε)} {s : σ} (h : M.Run E trace s) : M.Reachable E s :=
  ⟨trace, h⟩

theorem Reachable.mono (hEF : ∀ s ev, E s ev → F s ev) {s : σ} (h : M.Reachable E s) :
    M.Reachable F s := by
  obtain ⟨trace, hrun⟩ := h
  exact ⟨trace, hrun.mono hEF⟩

theorem Reachable.step {s s' : σ} {ev : ε} (h : M.Reachable E s) (hE : E s ev)
    (hs : M.step s ev = some s') : M.Reachable E s' := by
  obtain ⟨trace, hrun⟩ := h
  exact ⟨_, hrun.snoc hE hs⟩

theorem Reachable.path {s s' : σ} (h : M.Reachable E s) (hp : M.Path E s s') :
    M.Reachable E s' := by
  induction hp with
  | refl => exact h
  | tail _ hs ih =>
      obtain ⟨ev, hE, hstep⟩ := hs
      exact ih.step hE hstep

/-- The stability rule: a relation to the starting state that every admitted step from a reachable
    state extends relates the starting state to everything on the path. -/
theorem Reachable.stable {R : σ → σ → Prop} {s s' : σ} (h : M.Reachable E s) (hrefl : R s s)
    (hstep : ∀ u ev u', M.Reachable E u → R s u → E u ev → M.step u ev = some u' → R s u')
    (hp : M.Path E s s') : R s s' := by
  induction hp with
  | refl => exact hrefl
  | tail hpre hs ih =>
      obtain ⟨ev, hE, hu⟩ := hs
      exact hstep _ ev _ (h.path hpre) ih hE hu

/-- Every entry of a run's history is a step from a reachable state. -/
theorem Run.mem_trace {trace : List (σ × ε)} {s : σ} (h : M.Run E trace s) {u : σ} {ev : ε}
    (hmem : (u, ev) ∈ trace) : M.Reachable E u ∧ E u ev ∧ ∃ u', M.step u ev = some u' := by
  induction h with
  | nil => simp at hmem
  | snoc hrun hE hs ih =>
      rcases List.mem_append.1 hmem with hold | hnew
      · exact ih hold
      · obtain ⟨rfl, rfl⟩ : u = _ ∧ ev = _ := by simpa using hnew
        exact ⟨hrun.reachable, hE, _, hs⟩

/-- What comes before an entry of a run's history is a run to the state of that entry. -/
theorem Run.split {trace pre post : List (σ × ε)} {s u : σ} {ev : ε} (h : M.Run E trace s)
    (htrace : trace = pre ++ (u, ev) :: post) :
    M.Run E pre u ∧ E u ev ∧ ∃ u', M.step u ev = some u' := by
  induction h generalizing post with
  | nil => simp at htrace
  | @snoc trace s₀ s₁ ev₀ hrun hE hs ih =>
      rcases List.eq_nil_or_concat post with rfl | ⟨post, q, rfl⟩
      · obtain ⟨rfl, hlast⟩ := List.append_inj' htrace rfl
        obtain ⟨rfl, rfl⟩ : s₀ = u ∧ ev₀ = ev := by simpa using hlast
        exact ⟨hrun, hE, s₁, hs⟩
      · have happend : trace ++ [(s₀, ev₀)] = (pre ++ (u, ev) :: post) ++ [q] := by simpa using htrace
        exact ih (List.append_inj' happend rfl).1

/-- From every state of its history a run goes on to where it ends. -/
theorem Run.path_of_mem {trace : List (σ × ε)} {s : σ} (h : M.Run E trace s) {u : σ} {ev : ε}
    (hmem : (u, ev) ∈ trace) : M.Path E u s := by
  induction h with
  | nil => simp at hmem
  | snoc hrun hE hs ih =>
      rcases List.mem_append.1 hmem with hold | hnew
      · exact (ih hold).tail ⟨_, hE, hs⟩
      · obtain ⟨rfl, rfl⟩ : u = _ ∧ ev = _ := by simpa using hnew
        exact .single ⟨_, hE, hs⟩

/-- The check passes at every step of the history, given what came before. -/
def everyStep (check : List (σ × ε) → σ → ε → Bool) (l : List (σ × ε)) : Bool :=
  (List.range l.length).all fun i => l[i]?.all fun p => check (l.take i) p.1 p.2

theorem everyStep_split {check : List (σ × ε) → σ → ε → Bool} {l : List (σ × ε)}
    (h : everyStep check l = true) :
    ∀ pre u ev post, l = pre ++ (u, ev) :: post → check pre u ev = true := by
  rintro pre u ev post rfl
  rw [everyStep, List.all_eq_true] at h
  simpa using h pre.length (by simp)

/-! ## One player alone

Where the events `A i` of one player lead when nobody else moves, whatever the environment answers. -/

/-- The player gets to a state in `P`, whatever the answers. -/
inductive Reaches {ι : Type*} (M : Lts σ ε) (A : ι → ε) (P : σ → Prop) : σ → Prop
  | now {s : σ} (h : P s) : Reaches M A P s
  | later {s : σ} (hlive : ∀ i, (M.step s (A i)).isSome = true)
      (h : ∀ i s', M.step s (A i) = some s' → Reaches M A P s') : Reaches M A P s

/-- `n` steps of the player with the answers `is 0`, `is 1` and so on. -/
def follow {ι : Type*} (M : Lts σ ε) (A : ι → ε) : (Nat → ι) → Nat → σ → Option σ
  | _, 0, s => some s
  | is, n + 1, s => (M.step s (A (is 0))).bind (follow M A (fun i => is (i + 1)) n)

section Reaches

variable {ι : Type*} {A : ι → ε} {P Q : σ → Prop}

theorem Reaches.trans {s : σ} (h : M.Reaches A P s) (hPQ : ∀ s', P s' → M.Reaches A Q s') :
    M.Reaches A Q s := by
  induction h with
  | now h => exact hPQ _ h
  | later hlive _ ih => exact .later hlive ih

theorem Reaches.follow {s : σ} (h : M.Reaches A P s) (is : Nat → ι) :
    ∃ n s', M.follow A is n s = some s' ∧ P s' := by
  induction h generalizing is with
  | @now s h => exact ⟨0, s, rfl, h⟩
  | @later s hlive _ ih =>
      obtain ⟨s₁, hs⟩ := Option.isSome_iff_exists.1 (hlive (is 0))
      obtain ⟨n, s', hfollow, hP⟩ := ih (is 0) s₁ hs fun i => is (i + 1)
      exact ⟨n + 1, s', by rw [Lts.follow, hs]; exact hfollow, hP⟩

/-- A player that has stopped has stopped where it gets to. -/
theorem Reaches.of_follow {s s' : σ} {is : Nat → ι} {n : Nat} (h : M.Reaches A P s)
    (hstop : ∀ u, P u → ∀ i, M.step u (A i) = none) (hfollow : M.follow A is n s = some s')
    (hend : ∀ i, M.step s' (A i) = none) : P s' := by
  induction h generalizing is n with
  | @now s h =>
      cases n with
      | zero => exact Option.some.inj hfollow ▸ h
      | succ n =>
          rw [Lts.follow, hstop s h] at hfollow
          cases hfollow
  | @later s hlive _ ih =>
      cases n with
      | zero =>
          obtain rfl := Option.some.inj hfollow
          have hstep := hlive (is 0)
          rw [hend (is 0)] at hstep
          cases hstep
      | succ n =>
          obtain ⟨s₁, hs, hrest⟩ := Option.bind_eq_some_iff.1 hfollow
          exact ih (is 0) s₁ hs hrest

end Reaches

/-! ## Executing a schedule -/

/-- Follow a schedule of events, checking the environment on the way; the history comes along. -/
def play (M : Lts σ ε) (admits : σ → ε → Bool) :
    List (σ × ε) → σ → List ε → Option (List (σ × ε) × σ)
  | trace, s, [] => some (trace, s)
  | trace, s, ev :: rest =>
    if admits s ev then (M.step s ev).bind fun s' => M.play admits (trace ++ [(s, ev)]) s' rest
    else none

theorem Run.play {admits : σ → ε → Bool} (hE : ∀ s ev, admits s ev = true → E s ev)
    {evs : List ε} {trace trace' : List (σ × ε)} {s s' : σ} (h : M.Run E trace s)
    (hs : M.play admits trace s evs = some (trace', s')) : M.Run E trace' s' := by
  induction evs generalizing trace s with
  | nil =>
      obtain ⟨rfl, rfl⟩ : trace = trace' ∧ s = s' := by simpa [Lts.play] using hs
      exact h
  | cons ev rest ih =>
      rw [Lts.play] at hs
      split at hs
      · next hadm =>
          obtain ⟨u, hu, hrest⟩ := Option.bind_eq_some_iff.1 hs
          exact ih (h.snoc (hE _ _ hadm) hu) hrest
      · simp at hs

/-- A schedule that passes a check at its end shows that some run passes it. -/
theorem exists_run (M : Lts σ ε) (admits : σ → ε → Bool) (check : List (σ × ε) → σ → Bool)
    (evs : List ε) (hE : ∀ s ev, admits s ev = true → E s ev)
    (h : (M.play admits [] M.init evs).any (fun out => check out.1 out.2) = true) :
    ∃ trace s, M.Run E trace s ∧ check trace s = true := by
  cases hout : M.play admits [] M.init evs with
  | none => simp [hout] at h
  | some out => exact ⟨out.1, out.2, Run.play hE .nil hout, by simpa [hout] using h⟩

theorem exists_reachable (M : Lts σ ε) (admits : σ → ε → Bool) (check : σ → Bool) (evs : List ε)
    (hE : ∀ s ev, admits s ev = true → E s ev)
    (h : (M.play admits [] M.init evs).any (fun out => check out.2) = true) :
    ∃ s, M.Reachable E s ∧ check s = true := by
  obtain ⟨trace, s, hrun, hs⟩ := M.exists_run admits (fun _ s => check s) evs hE h
  exact ⟨s, hrun.reachable, hs⟩

end Lts
