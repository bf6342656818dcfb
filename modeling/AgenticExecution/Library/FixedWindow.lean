import AgenticExecution.Library.Table
import Mathlib.Order.Lattice

set_option autoImplicit false

/-! # Counting in fixed windows

Events carry a key and a window, and windows never go back. A table of counters has at most one entry
for each key: the window it was last counted in, and how often. Entries of past windows can be dropped
at any time: the counters agree with the whole history wherever it can still be asked, in the current
window and those to come. -/

/-- How often a key was counted in the window it was last counted in. -/
structure WindowCount (κ ω : Type*) where
  key : κ
  window : ω
  count : ℕ

/-- The counters, at most one for each key. -/
abbrev Counters (κ ω : Type*) := Table (WindowCount.key : WindowCount κ ω → κ)

namespace Counters

variable {κ ω : Type*} [DecidableEq κ] [LinearOrder ω] {C : Counters κ ω} {history : List (κ × ω)}
  {k k' : κ} {w w' now : ω}

/-- The count of a key in a window. -/
def countIn (C : Counters κ ω) (k : κ) (w : ω) : ℕ :=
  match C.find? k with
  | some c => if c.window = w then c.count else 0
  | none => 0

/-- Count the key once more in the window. -/
def hit (C : Counters κ ω) (k : κ) (w : ω) : Counters κ ω := C.upsert ⟨k, w, C.countIn k w + 1⟩

/-- Drop what is not of the window. -/
def prune (C : Counters κ ω) (w : ω) : Counters κ ω := C.filter fun c => decide (c.window = w)

theorem countIn_hit_self : (C.hit k w).countIn k w = C.countIn k w + 1 := by
  rw [countIn, hit, Table.find?_upsert_self C ⟨k, w, C.countIn k w + 1⟩]
  exact if_pos rfl

theorem countIn_hit_of_window_ne (h : w ≠ w') : (C.hit k w).countIn k w' = 0 := by
  rw [countIn, hit, Table.find?_upsert_self C ⟨k, w, C.countIn k w + 1⟩]
  exact if_neg h

theorem countIn_hit_of_key_ne (h : k' ≠ k) : (C.hit k w).countIn k' w' = C.countIn k' w' := by
  unfold hit
  rw [countIn, Table.find?_upsert_of_ne h, ← countIn]

theorem countIn_prune_self : (C.prune w).countIn k w = C.countIn k w := by
  unfold countIn
  cases hfound : (C.prune w).find? k with
  | some c =>
      obtain ⟨hC, -⟩ := Table.find?_filter_eq_some_iff.1 hfound
      rw [hC]
  | none =>
      cases hC : C.find? k with
      | none => rfl
      | some c =>
          have hne : c.window ≠ w := by
            intro heq
            have hkept : (C.prune w).find? k = some c :=
              Table.find?_filter_eq_some_iff.2 ⟨hC, decide_eq_true heq⟩
            rw [hkept] at hfound
            cases hfound
          exact (if_neg hne).symm

theorem countIn_prune_of_ne (h : w ≠ w') : (C.prune w).countIn k w' = 0 := by
  unfold countIn
  cases hfound : (C.prune w).find? k with
  | none => rfl
  | some c =>
      obtain ⟨-, hw⟩ := Table.find?_filter_eq_some_iff.1 hfound
      exact if_neg fun heq => h ((of_decide_eq_true hw).symm.trans heq)

/-- The counters agree with the history from the window `now` on, and nothing happened after it. -/
structure Agree (C : Counters κ ω) (history : List (κ × ω)) (now : ω) : Prop where
  past : ∀ a ∈ history, a.2 ≤ now
  count_eq : ∀ k w, now ≤ w → C.countIn k w = history.count (k, w)

namespace Agree

theorem empty (now : ω) : Agree (Table.empty : Counters κ ω) [] now where
  past := by simp
  count_eq k w _ := rfl

/-- Time may pass. -/
theorem advance (h : Agree C history now) (hle : now ≤ w) : Agree C history w where
  past a ha := (h.past a ha).trans hle
  count_eq k w' hw' := h.count_eq k w' (hle.trans hw')

theorem count_future (h : Agree C history now) (hlt : now < w) : history.count (k, w) = 0 :=
  List.count_eq_zero.2 fun hmem => not_le.2 hlt (h.past _ hmem)

theorem hit (h : Agree C history now) : Agree (C.hit k now) (history ++ [(k, now)]) now where
  past a ha := by
    rcases List.mem_append.1 ha with ha | ha
    · exact h.past a ha
    · obtain rfl := List.mem_singleton.1 ha
      exact le_refl now
  count_eq k' w hw := by
    rw [List.count_append, List.count_singleton]
    by_cases hk : k' = k
    · subst hk
      by_cases hw' : now = w
      · subst hw'
        rw [countIn_hit_self, h.count_eq k' now hw]
        simp
      · rw [countIn_hit_of_window_ne hw', h.count_future (lt_of_le_of_ne hw hw')]
        simp [hw']
    · rw [countIn_hit_of_key_ne hk, h.count_eq k' w hw]
      simp [Ne.symm hk]

theorem prune (h : Agree C history now) : Agree (C.prune now) history now where
  past := h.past
  count_eq k w hw := by
    by_cases hw' : now = w
    · subst hw'
      rw [countIn_prune_self, h.count_eq k now hw]
    · rw [countIn_prune_of_ne hw', h.count_future (lt_of_le_of_ne hw hw')]

end Agree

end Counters
