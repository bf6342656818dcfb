import Mathlib.Data.List.Forall2
import Mathlib.Data.List.Induction

set_option autoImplicit false

/-! # Evaluation in order

A list is evaluated from left to right, each entry from the values of the entries before it. So the
value of an entry depends on what is before it alone, and a longer list has the same values at the
positions of a shorter one. -/

namespace InOrder

variable {α β : Type*} {f : List β → α → β}

/-- The values of the entries, each computed from the earlier values and the entry. -/
def eval (f : List β → α → β) (l : List α) : List β := l.foldl (fun done a => done ++ [f done a]) []

/-- The evaluation after the values `done`. -/
def evalFrom (f : List β → α → β) (done : List β) (l : List α) : List β :=
  l.foldl (fun done a => done ++ [f done a]) done

theorem eval_eq_evalFrom (l : List α) : eval f l = evalFrom f [] l := rfl

@[simp] theorem evalFrom_nil (done : List β) : evalFrom f done [] = done := rfl

@[simp] theorem evalFrom_cons (done : List β) (a : α) (l : List α) :
    evalFrom f done (a :: l) = evalFrom f (done ++ [f done a]) l := rfl

@[simp] theorem eval_nil : eval f [] = [] := rfl

theorem eval_concat (l : List α) (a : α) : eval f (l ++ [a]) = eval f l ++ [f (eval f l) a] := by
  rw [eval, List.foldl_append]
  rfl

@[simp] theorem length_eval (l : List α) : (eval f l).length = l.length := by
  induction l using List.reverseRecOn with
  | nil => rfl
  | append_singleton l a ih => rw [eval_concat, List.length_append, List.length_append, ih]; rfl

/-- The values of the first entries do not depend on the others. -/
theorem take_eval (l : List α) (n : ℕ) : (eval f l).take n = eval f (l.take n) := by
  induction l using List.reverseRecOn with
  | nil => simp
  | append_singleton l a ih =>
      by_cases hn : n ≤ l.length
      · rw [eval_concat, List.take_append_of_le_length (by simpa using hn), ih,
          List.take_append_of_le_length hn]
      · have hlen : (l ++ [a]).length ≤ n := by
          rw [List.length_append, List.length_singleton]
          omega
        rw [List.take_of_length_le (by simpa using hlen), List.take_of_length_le hlen]

/-- The value of an entry. -/
theorem getElem?_eval {l : List α} {i : ℕ} {a : α} (h : l[i]? = some a) :
    (eval f l)[i]? = some (f (eval f (l.take i)) a) := by
  obtain ⟨hi, rfl⟩ := List.getElem?_eq_some_iff.1 h
  have hsucc : l.take (i + 1) = l.take i ++ [l[i]] := by
    rw [List.take_add_one, List.getElem?_eq_getElem hi, Option.toList_some]
  have hlen : (eval f (l.take i)).length = i := by
    rw [length_eval, List.length_take_of_le (Nat.le_of_lt hi)]
  rw [← List.getElem?_take_of_lt (Nat.lt_succ_self i), take_eval, hsucc, eval_concat,
    List.getElem?_append_right (Nat.le_of_eq hlen), hlen, Nat.sub_self]
  rfl

theorem exists_mem_eval {l : List α} {a : α} (h : a ∈ l) : ∃ done, f done a ∈ eval f l := by
  obtain ⟨i, hi⟩ := List.mem_iff_getElem?.1 h
  exact ⟨_, List.mem_of_getElem? (getElem?_eval hi)⟩

/-- A partial function is defined on a whole list when it is on every entry. -/
theorem mapM_eq_some_iff {g : α → Option β} {l : List α} {l' : List β} :
    l.mapM g = some l' ↔ List.Forall₂ (fun a b => g a = some b) l l' := by
  induction l generalizing l' with
  | nil => simp [eq_comm]
  | cons a rest ih =>
      rw [List.mapM_cons, List.forall₂_cons_left_iff]
      simp only [Option.bind_eq_bind, Option.bind_eq_some_iff, Option.pure_def, Option.some.injEq, ih]
      constructor
      · rintro ⟨b, hb, bs, hbs, rfl⟩
        exact ⟨b, bs, hb, hbs, rfl⟩
      · rintro ⟨b, bs, hb, hbs, rfl⟩
        exact ⟨b, hb, bs, hbs, rfl⟩

theorem isSome_mapM {g : α → Option β} {l : List α} :
    (l.mapM g).isSome = true ↔ ∀ a ∈ l, (g a).isSome = true := by
  induction l with
  | nil => simp
  | cons a rest ih =>
      rw [List.mapM_cons, List.forall_mem_cons, ← ih]
      cases g a with
      | none => simp
      | some b => cases rest.mapM g <;> simp

/-- Going through the positions of a list is going through the list. -/
theorem mapM_range {g : α → Option β} (l : List α) :
    (List.range l.length).mapM (fun i => (l[i]?).bind g) = l.mapM g := by
  induction l with
  | nil => rfl
  | cons a rest ih =>
      rw [List.length_cons, List.range_succ_eq_map, List.mapM_cons, List.mapM_map, List.mapM_cons, ← ih]
      rfl

theorem exists_of_forall₂ {R : α → β → Prop} {l : List α} {l' : List β} (h : List.Forall₂ R l l')
    {a : α} (ha : a ∈ l) : ∃ b ∈ l', R a b := by
  induction h with
  | nil => simp at ha
  | cons hab _ ih =>
      rcases List.mem_cons.1 ha with rfl | ha
      · exact ⟨_, List.mem_cons_self, hab⟩
      · obtain ⟨b, hb, hR⟩ := ih ha
        exact ⟨b, List.mem_cons_of_mem _ hb, hR⟩

end InOrder
