import AgenticExecution.Library.Lts

set_option autoImplicit false

/-! # Forward simulations

A system `M` under the environment `E` is simulated by `N` under `F` when its initial state is related to
that of `N` and a path of `N` answers every step of `M` between reachable, related states. What holds of
every reachable state of `N` then holds, through the relation, of every reachable state of `M`. -/

namespace Lts

variable {σ ε τ δ : Type*}

/-- `R` relates the states of `M` under `E` to those of `N` under `F`, step by step. -/
structure Simulation (M : Lts σ ε) (E : σ → ε → Prop) (N : Lts τ δ) (F : τ → δ → Prop)
    (R : σ → τ → Prop) : Prop where
  init : R M.init N.init
  step : ∀ {s ev s' u}, M.Reachable E s → N.Reachable F u → R s u → E s ev → M.step s ev = some s' →
    ∃ u', N.Path F u u' ∧ R s' u'

namespace Simulation

variable {M : Lts σ ε} {E : σ → ε → Prop} {N : Lts τ δ} {F : τ → δ → Prop} {R : σ → τ → Prop}
  {s s' : σ} {u : τ}

theorem path (h : Simulation M E N F R) (hs : M.Reachable E s) (hu : N.Reachable F u) (hR : R s u)
    (hp : M.Path E s s') : ∃ u', N.Path F u u' ∧ R s' u' := by
  induction hp with
  | refl => exact ⟨u, .refl, hR⟩
  | @tail s₁ s₂ hpre hlast ih =>
      obtain ⟨ev, hE, hstep⟩ := hlast
      obtain ⟨u₁, hu₁, hR₁⟩ := ih
      obtain ⟨u₂, hu₂, hR₂⟩ := h.step (hs.path hpre) (hu.path hu₁) hR₁ hE hstep
      exact ⟨u₂, hu₁.trans hu₂, hR₂⟩

theorem reachable (h : Simulation M E N F R) (hs : M.Reachable E s) :
    ∃ u, N.Reachable F u ∧ R s u := by
  obtain ⟨trace, hrun⟩ := hs
  induction hrun with
  | nil => exact ⟨N.init, ⟨[], .nil⟩, h.init⟩
  | snoc hrun hE hstep ih =>
      obtain ⟨u, hu, hR⟩ := ih
      obtain ⟨u', hp, hR'⟩ := h.step hrun.reachable hu hR hE hstep
      exact ⟨u', hu.path hp, hR'⟩

end Simulation

end Lts
