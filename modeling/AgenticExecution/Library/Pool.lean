import Mathlib.Algebra.BigOperators.Group.List.Basic
import Mathlib.Algebra.Order.BigOperators.Group.List
import Mathlib.Algebra.Order.Ring.Nat

set_option autoImplicit false

/-! # Thread pools

A pool is a list of thread states; thread `i` moves by `List.set i`, a new thread is appended. The
lemmas say what a move does to a quantifier over the pool and to a sum over it. -/

namespace Pool

variable {α : Type*} {l : List α} {i : ℕ} {a b : α}

/-- After thread `i` moved, every thread is the moved one or one that was there before. -/
theorem forall_set {P : α → Prop} (hb : P b) (hl : ∀ x ∈ l, P x) : ∀ x ∈ l.set i b, P x := by
  intro x hx
  rcases List.mem_or_eq_of_mem_set hx with hx | rfl
  · exact hl x hx
  · exact hb

/-- A thread other than the one that moved is still there. -/
theorem exists_set_of_ne {P : α → Prop} (ha : l[i]? = some a) (hna : ¬ P a)
    (h : ∃ x ∈ l, P x) : ∃ x ∈ l.set i b, P x := by
  obtain ⟨x, hx, hP⟩ := h
  obtain ⟨j, hj⟩ := List.mem_iff_getElem?.1 hx
  have hij : i ≠ j := by
    rintro rfl
    rw [ha, Option.some.injEq] at hj
    exact hna (hj ▸ hP)
  exact ⟨x, List.mem_iff_getElem?.2 ⟨j, by rw [List.getElem?_set, if_neg hij]; exact hj⟩, hP⟩

theorem mem_set_self (ha : l[i]? = some a) : b ∈ l.set i b := by
  obtain ⟨hlt, -⟩ := List.getElem?_eq_some_iff.1 ha
  exact List.mem_iff_getElem?.2 ⟨i, by rw [List.getElem?_set, if_pos rfl, if_pos hlt]⟩

/-- The thread found after thread `i` moved: the moved one, or one that was found before. -/
theorem getElem?_of_set {j : ℕ} (h : (l.set i b)[j]? = some a) : l[j]? = some a ∨ i = j ∧ a = b := by
  rw [List.getElem?_set] at h
  by_cases hij : i = j
  · rw [if_pos hij] at h
    split at h
    · exact .inr ⟨hij, (Option.some.inj h).symm⟩
    · cases h
  · rw [if_neg hij] at h
    exact .inl h

/-- The thread found after one was started: the new one, or one that was found before. -/
theorem getElem?_of_append (h : (l ++ [b])[i]? = some a) : l[i]? = some a ∨ a = b := by
  rw [List.getElem?_append] at h
  split at h
  · exact .inl h
  · exact .inr (List.mem_singleton.1 (List.mem_of_getElem? h))

/-- The weight of a pool under a move: the moved thread's weight is exchanged. -/
theorem sum_set (f : α → ℕ) (ha : l[i]? = some a) :
    ((l.set i b).map f).sum + f a = (l.map f).sum + f b := by
  induction l generalizing i with
  | nil => simp at ha
  | cons x rest ih =>
      cases i with
      | zero =>
          simp only [List.getElem?_cons_zero, Option.some.injEq] at ha
          subst ha
          simp only [List.set_cons_zero, List.map_cons, List.sum_cons]
          omega
      | succ j =>
          have := ih (i := j) (by simpa using ha)
          simp only [List.set_cons_succ, List.map_cons, List.sum_cons]
          omega

/-- The threads of a kind after thread `i` moved: the moved thread is exchanged. -/
theorem countP_modify (p : α → Bool) (g : α → α) (ha : l[i]? = some a) :
    (l.modify i g).countP p + (p a).toNat = l.countP p + (p (g a)).toNat := by
  induction l generalizing i with
  | nil => simp at ha
  | cons x rest ih =>
      cases i with
      | zero =>
          obtain rfl : x = a := by simpa using ha
          simp only [List.modify_zero_cons, List.countP_cons]
          cases p x <;> cases p (g x) <;> simp
      | succ j =>
          have := ih (i := j) (by simpa using ha)
          simp only [List.modify_succ_cons, List.countP_cons]
          omega

/-- What a move leaves of each thread it leaves of the pool. -/
theorem map_modify {β : Type*} {h : α → β} {g : α → α} (hg : ∀ a, h (g a) = h a) (l : List α) (i : ℕ) :
    (l.modify i g).map h = l.map h := by
  induction l generalizing i with
  | nil => simp
  | cons x rest ih =>
      cases i with
      | zero => simp [hg]
      | succ j => simp [ih j]

/-- The threads of a kind, counted by their places. -/
theorem countP_eq_length_filter_range (p : α → Bool) (l : List α) :
    l.countP p = ((List.range l.length).filter fun i => l[i]?.any p).length := by
  have hplaces : (List.range l.length).map (fun i => l[i]?) = l.map some := by
    refine List.ext_getElem (by simp) fun i hi hi' => ?_
    simp
  calc l.countP p = (l.map some).countP (Option.any p) := by simp [List.countP_map, Function.comp_def]
    _ = (List.range l.length).countP fun i => l[i]?.any p := by
        rw [← hplaces, List.countP_map]
        rfl
    _ = _ := List.countP_eq_length_filter

theorem le_sum (f : α → ℕ) (ha : l[i]? = some a) : f a ≤ (l.map f).sum :=
  List.single_le_sum (by simp) _ (List.mem_map_of_mem (List.mem_of_getElem? ha))

/-- A pool with positive weight has a thread that carries it. -/
theorem exists_of_sum_pos (f : α → ℕ) (h : 0 < (l.map f).sum) : ∃ x ∈ l, 0 < f x := by
  by_contra hne
  push Not at hne
  have : (l.map f).sum = 0 := by
    apply List.sum_eq_zero
    intro n hn
    obtain ⟨x, hx, rfl⟩ := List.mem_map.1 hn
    exact Nat.le_zero.1 (hne x hx)
  omega

end Pool
