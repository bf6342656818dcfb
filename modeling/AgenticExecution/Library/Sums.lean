import Mathlib.Algebra.BigOperators.Group.List.Basic
import Mathlib.Algebra.BigOperators.Group.List.Lemmas
import Mathlib.Algebra.Order.BigOperators.Group.List
import Mathlib.Algebra.Order.Ring.Nat
import Mathlib.Data.List.Nodup

set_option autoImplicit false

/-! # Sums over keyed rows

Totals over two lists of rows that are matched by a key, and the total over one list split by a key:
what `SUM` and `GROUP BY` answer for tables that only grow. -/

namespace Sums

variable {ρ κ M : Type*} {key : ρ → κ} {f : ρ → M} {l l' : List ρ}

section Ordered

variable [AddCommMonoid M] [PartialOrder M] [IsOrderedAddMonoid M]

/-- A total does not decrease where every row has a successor under its key that counts at least as
    much, and the rows that are new count at least nothing. -/
theorem le_of_keys (hnodup : (l.map key).Nodup)
    (hle : ∀ r ∈ l, ∃ r' ∈ l', key r' = key r ∧ f r ≤ f r') (hnonneg : ∀ r' ∈ l', 0 ≤ f r') :
    (l.map f).sum ≤ (l'.map f).sum := by
  induction l generalizing l' with
  | nil =>
      refine List.sum_nonneg fun y hy => ?_
      obtain ⟨r', hr', rfl⟩ := List.mem_map.1 hy
      exact hnonneg r' hr'
  | cons r rest ih =>
      obtain ⟨hfresh, hrest⟩ := List.nodup_cons.1 (List.map_cons ▸ hnodup)
      obtain ⟨r', hr', hkey, hfr⟩ := hle r List.mem_cons_self
      obtain ⟨pre, post, rfl⟩ := List.append_of_mem hr'
      have hothers : ∀ q ∈ rest, ∃ q' ∈ pre ++ post, key q' = key q ∧ f q ≤ f q' := by
        intro q hq
        obtain ⟨q', hq', hkey', hfq⟩ := hle q (List.mem_cons_of_mem r hq)
        refine ⟨q', ?_, hkey', hfq⟩
        have hmem : q' ∈ r' :: (pre ++ post) := List.perm_middle.mem_iff.1 hq'
        refine (List.mem_cons.1 hmem).resolve_left ?_
        rintro rfl
        exact hfresh (List.mem_map.2 ⟨q, hq, hkey'.symm.trans hkey⟩)
      have hsum := ih hrest hothers fun q' hq' =>
        hnonneg q' (List.perm_middle.mem_iff.2 (List.mem_cons_of_mem r' hq'))
      calc ((r :: rest).map f).sum = f r + (rest.map f).sum := by rw [List.map_cons, List.sum_cons]
        _ ≤ f r' + ((pre ++ post).map f).sum := add_le_add hfr hsum
        _ = ((r' :: (pre ++ post)).map f).sum := by rw [List.map_cons, List.sum_cons]
        _ = ((pre ++ r' :: post).map f).sum := (List.perm_middle.map f).sum_eq.symm

end Ordered

section Partition

variable [DecidableEq κ] [AddCommMonoid M]

theorem sum_ite_eq {ks : List κ} {k : κ} (hnodup : ks.Nodup) (hmem : k ∈ ks) (m : M) :
    (ks.map fun k' => if k = k' then m else 0).sum = m := by
  induction ks with
  | nil => cases hmem
  | cons k' rest ih =>
      obtain ⟨hfresh, hrest⟩ := List.nodup_cons.1 hnodup
      rw [List.map_cons, List.sum_cons]
      rcases List.mem_cons.1 hmem with rfl | htail
      · have hzero : (rest.map fun k' => if k = k' then m else 0).sum = 0 := by
          refine List.sum_eq_zero fun y hy => ?_
          obtain ⟨k', hk', rfl⟩ := List.mem_map.1 hy
          refine if_neg ?_
          rintro rfl
          exact hfresh hk'
        rw [if_pos rfl, hzero, add_zero]
      · have hne : k ≠ k' := by
          rintro rfl
          exact hfresh htail
        rw [ih hrest htail, if_neg hne, zero_add]

/-- The total over all rows is the sum of the totals for each key. -/
theorem sum_groups {ks : List κ} (hnodup : ks.Nodup) (hkeys : ∀ r ∈ l, key r ∈ ks) :
    (ks.map fun k => ((l.filter fun r => key r = k).map f).sum).sum = (l.map f).sum := by
  induction l with
  | nil => simp
  | cons r rest ih =>
      have hsplit : ∀ k, (((r :: rest).filter fun r => key r = k).map f).sum =
          (if key r = k then f r else 0) + ((rest.filter fun r => key r = k).map f).sum := by
        intro k
        by_cases hk : key r = k
        · simp [hk]
        · simp [hk]
      calc (ks.map fun k => (((r :: rest).filter fun r => key r = k).map f).sum).sum
          = (ks.map fun k => (if key r = k then f r else 0) +
              ((rest.filter fun r => key r = k).map f).sum).sum := by simp only [hsplit]
        _ = (ks.map fun k => if key r = k then f r else 0).sum +
              (ks.map fun k => ((rest.filter fun r => key r = k).map f).sum).sum :=
            List.sum_map_add
        _ = f r + (rest.map f).sum := by
            rw [sum_ite_eq hnodup (hkeys r List.mem_cons_self),
              ih fun q hq => hkeys q (List.mem_cons_of_mem r hq)]
        _ = ((r :: rest).map f).sum := by rw [List.map_cons, List.sum_cons]

end Partition

/-- A count of rows as a total. -/
theorem countP_eq_sum (p : ρ → Bool) (l : List ρ) :
    l.countP p = (l.map fun r => (p r).toNat).sum := by
  induction l with
  | nil => rfl
  | cons r rest ih =>
      rw [List.countP_cons, List.map_cons, List.sum_cons, ih, Nat.add_comm]
      cases p r <;> rfl

/-- A count does not decrease where every counted row has a counted successor under its key. -/
theorem countP_le_of_keys {p : ρ → Bool} (hnodup : (l.map key).Nodup)
    (hle : ∀ r ∈ l, ∃ r' ∈ l', key r' = key r ∧ (p r = true → p r' = true)) :
    l.countP p ≤ l'.countP p := by
  rw [countP_eq_sum, countP_eq_sum]
  refine le_of_keys hnodup (fun r hr => ?_) fun _ _ => Nat.zero_le _
  obtain ⟨r', hr', hkey, hp⟩ := hle r hr
  refine ⟨r', hr', hkey, ?_⟩
  cases h : p r with
  | false => exact Nat.zero_le _
  | true => rw [hp h]

end Sums
