import Mathlib.Data.List.Nodup
import Mathlib.Data.List.Perm.Basic
import Mathlib.Data.List.Count

set_option autoImplicit false

/-! # Keyed tables with guarded updates

A table is a list of rows whose keys are pairwise different, so a primary key or a UNIQUE constraint
is part of the type. `update` is the compare-and-set statement
`UPDATE … SET … WHERE key = k AND p`, `rowcount` the number of rows it touches, and `insert?` fails
on a key that is taken. -/

/-- Rows with pairwise different keys. -/
structure Table {ρ κ : Type*} (key : ρ → κ) where
  rows : List ρ
  nodup : (rows.map key).Nodup

namespace Table

variable {ρ κ : Type*} {key : ρ → κ}

instance : Membership ρ (Table key) := ⟨fun T r => r ∈ T.rows⟩

theorem mem_def {T : Table key} {r : ρ} : r ∈ T ↔ r ∈ T.rows := Iff.rfl

/-- The table without rows. -/
def empty : Table key := ⟨[], by simp⟩

@[simp] theorem not_mem_empty (r : ρ) : r ∉ (empty : Table key) := by
  simp [mem_def, empty]

/-- A key determines its row. -/
theorem eq_of_key_eq {T : Table key} {r r' : ρ} (h : r ∈ T) (h' : r' ∈ T)
    (hk : key r = key r') : r = r' :=
  List.inj_on_of_nodup_map T.nodup h h' hk

section Lookup

variable [DecidableEq κ]

/-- The row with key `k`. -/
def find? (T : Table key) (k : κ) : Option ρ := T.rows.find? fun r => key r = k

theorem find?_eq_some_iff {T : Table key} {k : κ} {r : ρ} :
    T.find? k = some r ↔ r ∈ T ∧ key r = k := by
  constructor
  · intro h
    exact ⟨List.mem_of_find?_eq_some h, by simpa using List.find?_some h⟩
  · rintro ⟨hmem, rfl⟩
    cases hf : T.find? (key r) with
    | none =>
        have := List.find?_eq_none.1 hf r hmem
        simp at this
    | some r' =>
        have hr' : r' ∈ T := List.mem_of_find?_eq_some hf
        have hk : key r' = key r := by simpa using List.find?_some hf
        rw [eq_of_key_eq hr' hmem hk]

theorem find?_eq_none_iff {T : Table key} {k : κ} : T.find? k = none ↔ ∀ r ∈ T, key r ≠ k := by
  simp [find?, mem_def]

theorem find?_isSome_iff {T : Table key} {k : κ} :
    (T.find? k).isSome ↔ ∃ r ∈ T, key r = k := by
  rw [Option.isSome_iff_exists]
  exact exists_congr fun r => find?_eq_some_iff

end Lookup

section Update

variable [DecidableEq κ]

/-- `UPDATE … SET f WHERE key = k AND p`. -/
def update (T : Table key) (k : κ) (p : ρ → Bool) (f : ρ → ρ)
    (hf : ∀ r, key (f r) = key r := by intro; rfl) : Table key where
  rows := T.rows.map fun r => if key r = k ∧ p r then f r else r
  nodup := by
    rw [List.map_map]
    convert T.nodup using 2
    funext r
    simp only [Function.comp_apply]
    split
    · exact hf r
    · rfl

/-- The number of rows `update T k p` changes. -/
def rowcount (T : Table key) (k : κ) (p : ρ → Bool) : ℕ :=
  T.rows.countP fun r => key r = k && p r

theorem mem_update {T : Table key} {k : κ} {p : ρ → Bool} {f : ρ → ρ}
    (hf : ∀ r, key (f r) = key r) {r' : ρ} :
    r' ∈ T.update k p f hf ↔ ∃ r ∈ T, r' = if key r = k ∧ p r then f r else r := by
  simp only [mem_def, update, List.mem_map, eq_comm]

theorem update_mem {T : Table key} {k : κ} {p : ρ → Bool} {f : ρ → ρ}
    (hf : ∀ r, key (f r) = key r) {r : ρ} (h : r ∈ T) :
    (if key r = k ∧ p r then f r else r) ∈ T.update k p f hf :=
  (mem_update hf).2 ⟨r, h, rfl⟩

/-- An update that matches no row changes nothing. -/
theorem update_of_not {T : Table key} {k : κ} {p : ρ → Bool} {f : ρ → ρ}
    (hf : ∀ r, key (f r) = key r) (h : ∀ r ∈ T, key r = k → p r = false) : T.update k p f hf = T := by
  have hrows : T.rows.map (fun r => if key r = k ∧ p r then f r else r) = T.rows := by
    conv_rhs => rw [← List.map_id T.rows]
    refine List.map_congr_left fun r hr => if_neg fun hc => ?_
    rw [h r hr hc.1] at hc
    exact absurd hc.2 Bool.false_ne_true
  cases T
  simp only [update, hrows]

/-- An update of one row among others with different keys. -/
theorem map_update_middle {k : κ} {p : ρ → Bool} {f : ρ → ρ} {seen rest : List ρ} {r : ρ}
    (hnodup : ((seen ++ r :: rest).map key).Nodup) (hk : key r = k) (hp : p r = true) :
    (seen ++ r :: rest).map (fun r' => if key r' = k ∧ p r' then f r' else r') =
      seen ++ f r :: rest := by
  have hother : ∀ r' ∈ seen ++ rest, key r' ≠ k := by
    have hperm : (seen ++ r :: rest).Perm (r :: (seen ++ rest)) := List.perm_middle
    have hcons := (hperm.map key).nodup_iff.1 hnodup
    rw [List.map_cons, List.nodup_cons] at hcons
    intro r' hr' hk'
    exact hcons.1 (List.mem_map.2 ⟨r', hr', hk'.trans hk.symm⟩)
  have hsame : ∀ l : List ρ, (∀ r' ∈ l, key r' ≠ k) →
      l.map (fun r' => if key r' = k ∧ p r' then f r' else r') = l := by
    intro l hl
    conv_rhs => rw [← List.map_id l]
    exact List.map_congr_left fun r' hr' => if_neg fun hc => hl r' hr' hc.1
  rw [List.map_append, List.map_cons, hsame seen fun r' hr' => hother r' (List.mem_append_left _ hr'),
    hsame rest fun r' hr' => hother r' (List.mem_append_right _ hr'), if_pos ⟨hk, hp⟩]

theorem rowcount_pos_iff {T : Table key} {k : κ} {p : ρ → Bool} :
    0 < T.rowcount k p ↔ ∃ r ∈ T, key r = k ∧ p r = true := by
  simp [rowcount, List.countP_pos_iff, mem_def]

theorem rowcount_le_one (T : Table key) (k : κ) (p : ρ → Bool) : T.rowcount k p ≤ 1 := by
  have hcount : T.rowcount k p ≤ (T.rows.map key).count k := by
    rw [List.count_eq_countP, List.countP_map]
    apply List.countP_mono_left
    intro r _ hr
    simp only [Bool.and_eq_true, decide_eq_true_eq] at hr
    simp [hr.1]
  exact Nat.le_trans hcount (List.nodup_iff_count_le_one.1 T.nodup k)

/-- A compare-and-set succeeds iff the row is there and passes the guard. -/
theorem rowcount_eq_one_iff {T : Table key} {k : κ} {p : ρ → Bool} :
    T.rowcount k p = 1 ↔ ∃ r ∈ T, key r = k ∧ p r = true := by
  rw [← rowcount_pos_iff]
  have := rowcount_le_one T k p
  omega

end Update

section Insert

variable [DecidableEq κ]

/-- `INSERT`, refused when the key is taken. -/
def insert? (T : Table key) (r : ρ) : Option (Table key) :=
  if h : key r ∈ T.rows.map key then none
  else some ⟨T.rows ++ [r], by
    rw [List.map_append, List.map_singleton, List.nodup_append_comm]
    exact List.nodup_cons.2 ⟨h, T.nodup⟩⟩

theorem insert?_eq_none_iff {T : Table key} {r : ρ} :
    T.insert? r = none ↔ ∃ r' ∈ T, key r' = key r := by
  simp [insert?, mem_def]

theorem rows_insert? {T T' : Table key} {r : ρ} (h : T.insert? r = some T') :
    T'.rows = T.rows ++ [r] := by
  unfold insert? at h
  split at h
  · simp at h
  · obtain rfl := Option.some.inj h
    rfl

theorem mem_insert? {T T' : Table key} {r r' : ρ} (h : T.insert? r = some T') :
    r' ∈ T' ↔ r' ∈ T ∨ r' = r := by
  rw [mem_def, rows_insert? h, List.mem_append, List.mem_singleton, mem_def]

/-- Insert the rows one after another; a row whose key is taken is refused. -/
def insertAll (T : Table key) : List ρ → Table key
  | [] => T
  | r :: rest => ((T.insert? r).getD T).insertAll rest

/-- Rows with new, pairwise different keys are all stored, behind the old ones. -/
theorem rows_insertAll {T : Table key} {rs : List ρ} (hnew : ∀ r ∈ rs, ∀ r' ∈ T, key r' ≠ key r)
    (hnodup : (rs.map key).Nodup) : (T.insertAll rs).rows = T.rows ++ rs := by
  induction rs generalizing T with
  | nil => simp [insertAll]
  | cons r rest ih =>
      rw [List.map_cons, List.nodup_cons] at hnodup
      obtain ⟨hr, hrest⟩ := hnodup
      rw [insertAll]
      cases hins : T.insert? r with
      | none =>
          obtain ⟨r₁, h₁, hk⟩ := insert?_eq_none_iff.1 hins
          exact absurd hk (hnew r List.mem_cons_self r₁ h₁)
      | some T' =>
          rw [Option.getD_some, ih _ hrest, rows_insert? hins, List.append_assoc,
            List.singleton_append]
          intro r₂ h₂ r₁ h₁
          rcases (mem_insert? hins).1 h₁ with h₁ | rfl
          · exact hnew r₂ (List.mem_cons_of_mem _ h₂) r₁ h₁
          · intro hk
            exact hr (List.mem_map.2 ⟨r₂, h₂, hk.symm⟩)

theorem mem_insertAll {T : Table key} {rs : List ρ} (hnew : ∀ r ∈ rs, ∀ r' ∈ T, key r' ≠ key r)
    (hnodup : (rs.map key).Nodup) {r' : ρ} : r' ∈ T.insertAll rs ↔ r' ∈ T ∨ r' ∈ rs := by
  rw [mem_def, rows_insertAll hnew hnodup, List.mem_append, mem_def]

end Insert

section Delete

variable [DecidableEq κ]

/-- `DELETE … WHERE key = k`. -/
def erase (T : Table key) (k : κ) : Table key where
  rows := T.rows.filter fun r => key r ≠ k
  nodup := (List.Sublist.map key List.filter_sublist).nodup T.nodup

@[simp] theorem mem_erase {T : Table key} {k : κ} {r : ρ} : r ∈ T.erase k ↔ r ∈ T ∧ key r ≠ k := by
  simp [mem_def, erase]

/-- Insert the row, replacing the one with its key. -/
def upsert (T : Table key) (r : ρ) : Table key where
  rows := (T.erase (key r)).rows ++ [r]
  nodup := by
    rw [List.map_append, List.map_singleton, List.nodup_append_comm]
    refine List.nodup_cons.2 ⟨?_, (T.erase (key r)).nodup⟩
    intro hmem
    obtain ⟨r', hr', hk⟩ := List.mem_map.1 hmem
    exact (mem_erase.1 hr').2 hk

@[simp] theorem mem_upsert {T : Table key} {r r' : ρ} :
    r' ∈ T.upsert r ↔ (r' ∈ T ∧ key r' ≠ key r) ∨ r' = r := by
  rw [mem_def, upsert, List.mem_append, ← mem_def, mem_erase, List.mem_singleton]

theorem find?_upsert_self (T : Table key) (r : ρ) : (T.upsert r).find? (key r) = some r :=
  find?_eq_some_iff.2 ⟨mem_upsert.2 (.inr rfl), rfl⟩

/-- The other keys keep their rows. -/
theorem find?_upsert_of_ne {T : Table key} {r : ρ} {k : κ} (h : k ≠ key r) :
    (T.upsert r).find? k = T.find? k := by
  ext r'
  rw [find?_eq_some_iff, find?_eq_some_iff, mem_upsert]
  constructor
  · rintro ⟨⟨hmem, -⟩ | rfl, hk⟩
    · exact ⟨hmem, hk⟩
    · exact absurd hk.symm h
  · rintro ⟨hmem, rfl⟩
    exact ⟨.inl ⟨hmem, h⟩, rfl⟩

/-- The rows that pass `p`. -/
def filter (T : Table key) (p : ρ → Bool) : Table key where
  rows := T.rows.filter p
  nodup := (List.Sublist.map key List.filter_sublist).nodup T.nodup

theorem find?_filter_eq_some_iff {T : Table key} {p : ρ → Bool} {k : κ} {r : ρ} :
    (T.filter p).find? k = some r ↔ T.find? k = some r ∧ p r = true := by
  rw [find?_eq_some_iff, find?_eq_some_iff, mem_def, mem_def]
  show r ∈ T.rows.filter p ∧ _ ↔ _
  rw [List.mem_filter]
  tauto

end Delete

/-! ## Fresh natural-number keys -/

section Fresh

variable {key : ρ → ℕ}

/-- A key no row carries. -/
def fresh (T : Table key) : ℕ := (T.rows.map key).foldr max 0 + 1

theorem key_lt_fresh {T : Table key} {r : ρ} (h : r ∈ T) : key r < T.fresh := by
  have hle : ∀ (l : List ℕ) (n : ℕ), n ∈ l → n ≤ l.foldr max 0 := by
    intro l
    induction l with
    | nil => simp
    | cons m rest ih =>
        intro n hn
        rcases List.mem_cons.1 hn with rfl | hn
        · exact Nat.le_max_left _ _
        · exact Nat.le_trans (ih n hn) (Nat.le_max_right _ _)
  have := hle _ _ (List.mem_map_of_mem (f := key) h)
  rw [fresh]
  omega

end Fresh

/-! ## Row order

A `SELECT` without `ORDER BY` returns its rows in any order; the environment names it as a list of
positions, and a list that is no permutation of them leaves the rows as they are. -/

section Reorder

variable {α : Type*}

/-- The rows in the given order. -/
def reorder (order : List ℕ) (rows : List α) : List α :=
  if order.Perm (List.range rows.length) then order.filterMap fun i => rows[i]? else rows

theorem filterMap_getElem?_range (rows : List α) :
    (List.range rows.length).filterMap (fun i => rows[i]?) = rows := by
  induction rows with
  | nil => rfl
  | cons r rest ih =>
      rw [List.length_cons, List.range_succ_eq_map, List.filterMap_cons, List.filterMap_map]
      simpa [Function.comp_def] using ih

theorem reorder_perm (order : List ℕ) (rows : List α) : (reorder order rows).Perm rows := by
  unfold reorder
  split
  · next h =>
      have := h.filterMap fun i => rows[i]?
      rwa [filterMap_getElem?_range] at this
  · exact List.Perm.refl _

@[simp] theorem mem_reorder {order : List ℕ} {rows : List α} {r : α} :
    r ∈ reorder order rows ↔ r ∈ rows :=
  (reorder_perm order rows).mem_iff

end Reorder

end Table
