set_option autoImplicit false

/-! # Programs that raise

Programs over a state that may end with an exception; the state they have reached is kept then, as in a
language with `try` and assignments. `After` is what holds after a run, for either end, and each way
to compose programs has one rule for it. -/

namespace AgenticExecution

section Raising

variable {σ ε α β : Type} {s : σ} {Q Q' : α → σ → Prop} {R R' : ε → σ → Prop}

/-- A run of `x` from `s` ends with a value and a state in `Q`, or raises with both in `R`. -/
def After (x : EStateM ε σ α) (s : σ) (Q : α → σ → Prop) (R : ε → σ → Prop) : Prop :=
  match x.run s with
  | .ok a s' => Q a s'
  | .error exc s' => R exc s'

@[simp] theorem after_pure (a : α) : After (pure a) s Q R ↔ Q a s := Iff.rfl

@[simp] theorem after_throw (exc : ε) : After (throw exc) s Q R ↔ R exc s := Iff.rfl

@[simp] theorem after_modify (f : σ → σ) {Q : Unit → σ → Prop} :
    After (modify f) s Q R ↔ Q () (f s) := Iff.rfl

@[simp] theorem after_get {Q : σ → σ → Prop} : After get s Q R ↔ Q s s := Iff.rfl

/-- What comes next starts where a program has ended, and is skipped when it has raised. -/
@[simp] theorem after_bind (x : EStateM ε σ α) (f : α → EStateM ε σ β) {Q : β → σ → Prop} :
    After (x >>= f) s Q R ↔ After x s (fun a s' => After (f a) s' Q R) R := by
  unfold After
  show (match EStateM.bind x f s with | .ok a s' => Q a s' | .error exc s' => R exc s') ↔ _
  unfold EStateM.bind EStateM.run
  cases x s with
  | ok a s' => exact Iff.rfl
  | error exc s' => exact Iff.rfl

/-- A handler starts in the state in which the program has raised. -/
@[simp] theorem after_tryCatch (x : EStateM ε σ α) (handler : ε → EStateM ε σ α) :
    After (tryCatch x handler) s Q R ↔ After x s Q fun exc s' => After (handler exc) s' Q R := by
  unfold After
  show (match EStateM.tryCatch x handler s with | .ok a s' => Q a s' | .error exc s' => R exc s') ↔ _
  unfold EStateM.tryCatch EStateM.run
  cases x s with
  | ok a s' => exact Iff.rfl
  | error exc s' => exact Iff.rfl

theorem After.mono {x : EStateM ε σ α} (h : After x s Q R) (hQ : ∀ a s', Q a s' → Q' a s')
    (hR : ∀ exc s', R exc s' → R' exc s') : After x s Q' R' := by
  unfold After at h ⊢
  split at h
  · exact hQ _ _ h
  · exact hR _ _ h

end Raising

end AgenticExecution
