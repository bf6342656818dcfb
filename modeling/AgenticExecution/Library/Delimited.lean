import Mathlib.Data.List.TakeWhile

set_option autoImplicit false

/-! # Searching for a delimited stretch

What a backtracking matcher returns for an opening item, any items, and a closing item: it tries the
start positions from the left, and at a start it lets the middle part take as much as it can. -/

namespace AgenticExecution

namespace Delimited

variable {α : Type} [DecidableEq α] {opening closing : α} {pre body suf text : List α}

/-- The longest prefix that ends with `closing`: going on is tried before stopping. -/
def greedy (closing : α) : List α → Option (List α)
  | [] => none
  | x :: rest =>
    match greedy closing rest with
    | some m => some (x :: m)
    | none => if x = closing then some [x] else none

/-- The match at the first start position that has one. -/
def search (opening closing : α) : List α → Option (List α)
  | [] => none
  | x :: rest =>
    if x = opening then
      match greedy closing rest with
      | some m => some (x :: m)
      | none => search opening closing rest
    else search opening closing rest

theorem greedy_eq_none (h : closing ∉ text) : greedy closing text = none := by
  induction text with
  | nil => rfl
  | cons x rest ih =>
    have h_x : closing ≠ x := List.ne_of_not_mem_cons h
    unfold greedy
    rw [ih (List.not_mem_of_not_mem_cons h)]
    exact if_neg h_x.symm

/-- The body may hold closing items itself: only what follows decides. -/
theorem greedy_append (h : closing ∉ suf) :
    greedy closing (body ++ closing :: suf) = some (body ++ [closing]) := by
  induction body with
  | nil =>
    show greedy closing (closing :: suf) = some [closing]
    unfold greedy
    rw [greedy_eq_none h]
    exact if_pos rfl
  | cons x rest ih =>
    show greedy closing (x :: (rest ++ closing :: suf)) = _
    unfold greedy
    rw [ih]
    rfl

theorem search_eq_none (h : closing ∉ text) : search opening closing text = none := by
  induction text with
  | nil => rfl
  | cons x rest ih =>
    have h_rest : closing ∉ rest := List.not_mem_of_not_mem_cons h
    unfold search
    rw [greedy_eq_none h_rest, ih h_rest]
    exact ite_self none

/-- Nothing starts before the first opening item. -/
theorem search_append (h : opening ∉ pre) :
    search opening closing (pre ++ text) = search opening closing text := by
  induction pre with
  | nil => rfl
  | cons x rest ih =>
    have h_x : opening ≠ x := List.ne_of_not_mem_cons h
    rw [List.cons_append, search, if_neg h_x.symm, ih (List.not_mem_of_not_mem_cons h)]

/-- The search returns the outermost stretch, whatever it holds. -/
theorem search_outermost (hpre : opening ∉ pre) (hsuf : closing ∉ suf) :
    search opening closing (pre ++ opening :: (body ++ closing :: suf)) =
      some (opening :: (body ++ [closing])) := by
  rw [search_append hpre]
  unfold search
  rw [if_pos rfl, greedy_append hsuf]

/-! ## Splitting at an occurrence -/

theorem dropWhile_ne_eq_nil {x : α} (h : x ∉ text) : text.dropWhile (· ≠ x) = [] := by
  rw [List.dropWhile_eq_nil_iff]
  intro y hy
  exact decide_eq_true fun heq => h (heq ▸ hy)

theorem dropWhile_ne_append {x : α} (h : x ∉ pre) :
    (pre ++ x :: text).dropWhile (· ≠ x) = x :: text := by
  rw [List.dropWhile_append_of_pos, List.dropWhile_cons_of_neg (by simp)]
  intro y hy
  exact decide_eq_true fun heq => h (heq ▸ hy)

omit [DecidableEq α] in
/-- A list that holds an item splits at its last occurrence. -/
theorem exists_last (h : closing ∈ text) : ∃ body suf, text = body ++ closing :: suf ∧ closing ∉ suf := by
  obtain ⟨suf, body, heq, hsuf⟩ := List.eq_append_cons_of_mem (List.mem_reverse.mpr h)
  refine ⟨body.reverse, suf.reverse, ?_, fun hmem => hsuf (List.mem_reverse.mp hmem)⟩
  rw [← List.reverse_reverse text, heq]
  simp

end Delimited

end AgenticExecution
