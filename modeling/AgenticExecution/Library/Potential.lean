import AgenticExecution.Library.Lts
import AgenticExecution.Library.Table
import Mathlib.Algebra.BigOperators.Group.List.Basic
import Mathlib.Algebra.Order.BigOperators.Group.List
import Mathlib.Algebra.Order.Ring.Nat

set_option autoImplicit false

/-! # Paying for steps out of a potential

An amortised account of a transition system: every step pays its cost out of the potential it lowers
and out of what its event supplies. Over a run the payments add up, so the cost of the run is bounded
by what it was supplied with; and where steps that supply nothing can always be found, they lead to the
end. The potential of a table is the sum over its rows. -/

namespace Lts

variable {σ ε : Type*} {M : Lts σ ε} {E F : σ → ε → Prop}

/-- The account of a run: what is left and what was spent comes from the start and the supply. -/
theorem Run.amortized (potential : σ → ℕ) (cost supply : σ → ε → ℕ)
    (hstep : ∀ s ev s', M.Reachable E s → E s ev → M.step s ev = some s' →
      potential s' + cost s ev ≤ potential s + supply s ev)
    {trace : List (σ × ε)} {s : σ} (h : M.Run E trace s) :
    potential s + (trace.map fun p => cost p.1 p.2).sum ≤
      potential M.init + (trace.map fun p => supply p.1 p.2).sum := by
  induction h with
  | nil => simp
  | @snoc trace s s' ev hrun hE hs ih =>
      have hpay := hstep s ev s' hrun.reachable hE hs
      simp only [List.map_append, List.sum_append, List.map_singleton, List.sum_singleton]
      omega

/-- The history may be read into the environment: what holds of every entry restricts the run. -/
theorem Run.restrict {P : σ → ε → Prop} {trace : List (σ × ε)} {s : σ} (h : M.Run E trace s)
    (hP : ∀ p ∈ trace, P p.1 p.2) : M.Run (fun s ev => E s ev ∧ P s ev) trace s := by
  induction h with
  | nil => exact .nil
  | snoc _ hE hs ih =>
      have hlast := hP _ (List.mem_append_right _ (List.mem_singleton_self _))
      exact .snoc (ih fun p hp => hP p (List.mem_append_left _ hp)) ⟨hE, hlast⟩ hs

theorem Path.mono (hEF : ∀ s ev, E s ev → F s ev) {s s' : σ} (h : M.Path E s s') : M.Path F s s' := by
  have hstep : ∀ s s', M.Step E s s' → M.Step F s s' := fun s s' ⟨ev, hE, hs⟩ => ⟨ev, hEF s ev hE, hs⟩
  exact Relation.ReflTransGen.mono hstep s s' h

theorem Path.of_step {s s' : σ} {ev : ε} (hE : E s ev) (hs : M.step s ev = some s') : M.Path E s s' :=
  .single ⟨ev, hE, hs⟩

end Lts

namespace Table

variable {ρ κ : Type*} {key : ρ → κ} [DecidableEq κ]

/-- The sum of `f` over the rows. -/
def sum (T : Table key) (f : ρ → ℕ) : ℕ := (T.rows.map f).sum

/-- The update of one row exchanges what it adds to the sum. -/
theorem sum_update {T : Table key} {k : κ} {p : ρ → Bool} {g : ρ → ρ} (hg : ∀ r, key (g r) = key r)
    (f : ρ → ℕ) {r : ρ} (hr : r ∈ T) (hk : key r = k) (hp : p r = true) :
    (T.update k p g hg).sum f + f r = T.sum f + f (g r) := by
  obtain ⟨seen, rest, hrows⟩ := List.append_of_mem hr
  have hnodup : ((seen ++ r :: rest).map key).Nodup := hrows ▸ T.nodup
  have hupdate : (T.update k p g hg).rows = seen ++ g r :: rest := by
    show T.rows.map _ = _
    rw [hrows]
    exact map_update_middle hnodup hk hp
  simp only [sum, hupdate, hrows, List.map_append, List.map_cons, List.sum_append, List.sum_cons]
  omega

/-- An update that lowers `f` by `d`, up to `a`, on the row it matches does so to the sum. -/
theorem sum_update_le {T : Table key} {k : κ} {p : ρ → Bool} {g : ρ → ρ} (hg : ∀ r, key (g r) = key r)
    {f : ρ → ℕ} {d a : ℕ} (h : ∀ r ∈ T, key r = k → p r = true → f (g r) + d ≤ f r + a) :
    (T.update k p g hg).sum f + d * T.rowcount k p ≤ T.sum f + a * T.rowcount k p := by
  by_cases hmatch : ∃ r ∈ T, key r = k ∧ p r = true
  · obtain ⟨r, hr, hk, hp⟩ := hmatch
    have hsum := sum_update hg f hr hk hp
    have hle := h r hr hk hp
    rw [rowcount_eq_one_iff.2 ⟨r, hr, hk, hp⟩]
    omega
  · have hsame : T.update k p g hg = T := by
      refine update_of_not hg fun r hr hk => ?_
      by_contra hp
      exact hmatch ⟨r, hr, hk, by simpa using hp⟩
    have hzero : T.rowcount k p = 0 := by
      by_contra hpos
      exact hmatch (rowcount_pos_iff.1 (Nat.pos_of_ne_zero hpos))
    rw [hsame, hzero]
    omega

theorem length_erase_of_mem {T : Table key} {k : κ} (h : (T.find? k).isSome) :
    (T.erase k).rows.length + 1 ≤ T.rows.length := by
  obtain ⟨r, hr, hk⟩ := find?_isSome_iff.1 h
  have hlt : (T.rows.filter fun r => key r ≠ k).length < T.rows.length :=
    List.length_filter_lt_length_iff_exists.2 ⟨r, hr, by simp [hk]⟩
  exact hlt

theorem length_upsert_le (T : Table key) (r : ρ) : (T.upsert r).rows.length ≤ T.rows.length + 1 := by
  have hle : (T.rows.filter fun r' => key r' ≠ key r).length ≤ T.rows.length := List.length_filter_le _ _
  rw [upsert, List.length_append, List.length_singleton]
  exact Nat.succ_le_succ hle

/-- A table all of whose rows point to one of the keys, no more than `n` to the same, has at most `n`
    rows for each key. -/
theorem length_le_mul {α β : Type*} [DecidableEq β] (f : α → β) {n : ℕ} {rows : List α} {keys : List β}
    (hkeys : ∀ r ∈ rows, f r ∈ keys) (hfew : ∀ k, (rows.filter (f · = k)).length ≤ n) :
    rows.length ≤ n * keys.length := by
  induction keys generalizing rows with
  | nil =>
      have hnil : rows = [] := List.eq_nil_iff_forall_not_mem.2 fun r hr => by simpa using hkeys r hr
      simp [hnil]
  | cons k rest ih =>
      have hsplit := List.length_eq_length_filter_add (l := rows) (f · = k)
      have hothers : (rows.filter (fun r => !decide (f r = k))).length ≤ n * rest.length := by
        refine ih (fun r hr => ?_) fun k' => ?_
        · obtain ⟨hmem, hne⟩ := List.mem_filter.1 hr
          exact (List.mem_cons.1 (hkeys r hmem)).resolve_left (by simpa using hne)
        · exact Nat.le_trans ((List.filter_sublist.filter _).length_le) (hfew k')
      have hk := hfew k
      rw [List.length_cons, Nat.mul_succ]
      omega

end Table
