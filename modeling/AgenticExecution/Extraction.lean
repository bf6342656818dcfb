import AgenticExecution.Library.Delimited
import AgenticExecution.PlanDependencies

set_option autoImplicit false

/-! # Plans in prose

`_JSON_ARRAY_RE.search` as the backtracking matcher runs it, and what it makes of an array with text
around it: the matcher starts at the first `[` and gives back characters from the end of the text
until it stands on a `]`, so brackets inside the array, in strings too, do not matter. -/

namespace AgenticExecution

namespace Planner

/-- What the planner takes as the match is the match of the pattern: `[`, then anything, line breaks
    included and as much as possible, then `]`. -/
theorem searchArray_eq_search (text : List Char) :
    searchArray text = Delimited.search '[' ']' text := by
  simp only [searchArray]
  by_cases h_open : '[' ∈ text
  · obtain ⟨pre, rest, rfl, hpre⟩ := List.eq_append_cons_of_mem h_open
    rw [Delimited.dropWhile_ne_append hpre]
    by_cases h_close : ']' ∈ rest
    · obtain ⟨body, suf, rfl, hsuf⟩ := Delimited.exists_last h_close
      have h_rev : ('[' :: (body ++ ']' :: suf)).reverse = suf.reverse ++ ']' :: ('[' :: body).reverse := by
        simp
      rw [Delimited.search_outermost hpre hsuf, h_rev,
        Delimited.dropWhile_ne_append fun hmem => hsuf (List.mem_reverse.mp hmem)]
      simp
    · have h_none : ']' ∉ '[' :: rest := by simpa using h_close
      rw [Delimited.search_append hpre, Delimited.search_eq_none h_none,
        Delimited.dropWhile_ne_eq_nil fun hmem => h_none (List.mem_reverse.mp hmem)]
      rfl
  · rw [Delimited.dropWhile_ne_eq_nil h_open, ← List.append_nil text, Delimited.search_append h_open]
    rfl

/-- An array in prose without brackets is found as it is. -/
theorem searchArray_wrapped {pre array suf : List Char} (hopen : array.head? = some '[')
    (hclose : array.getLast? = some ']') (hpre : '[' ∉ pre) (hsuf : ']' ∉ suf) :
    searchArray (pre ++ array ++ suf) = some array := by
  obtain ⟨front, rfl⟩ := List.getLast?_eq_some_iff.mp hclose
  obtain ⟨body, rfl⟩ : ∃ body, front = '[' :: body := by
    cases front with
    | nil => simp at hopen
    | cons c body => exact ⟨body, by simpa using hopen⟩
  have h_text : pre ++ ('[' :: body ++ [']']) ++ suf = pre ++ '[' :: (body ++ ']' :: suf) := by simp
  rw [searchArray_eq_search, h_text, Delimited.search_outermost hpre hsuf]
  rfl

section

variable {py : Python} {pre array suf : String}

theorem loadJson_of_accepts {text : String} (haccepts : (py.loads text).isSome) (hne : text ≠ "") :
    loadJson py text = py.loads text := by
  obtain ⟨j, hj⟩ := Option.isSome_iff_exists.mp haccepts
  rw [loadJson, if_neg hne, hj]

theorem loadJson_of_rejects {text : String} (hrejects : py.loads text = none) (hne : text ≠ "") :
    loadJson py text =
      (searchArray text.toList).bind fun array => py.loads (String.ofList array) := by
  rw [loadJson, if_neg hne, hrejects]
  cases searchArray text.toList with
  | none => rfl
  | some array => rfl

/-- Prose around an array does not matter, whatever brackets and lines the array holds: the same value
    is loaded and the same plan comes out. -/
theorem loadJson_wrapped (hopen : array.toList.head? = some '[')
    (hclose : array.toList.getLast? = some ']') (haccepts : (py.loads array).isSome)
    (hpre : '[' ∉ pre.toList ∧ ']' ∉ pre.toList) (hsuf : '[' ∉ suf.toList ∧ ']' ∉ suf.toList)
    (hrejects : py.loads (pre ++ array ++ suf) = none) :
    loadJson py (pre ++ array ++ suf) = py.loads array ∧
      parse py (pre ++ array ++ suf) = parse py array ∧
      ∀ (planner : Planner) (userRequest : String),
        planner.planSubtasks py userRequest (pre ++ array ++ suf) =
          planner.planSubtasks py userRequest array := by
  have h_array : array ≠ "" := by
    rintro rfl
    simp at hopen
  have h_text : pre ++ array ++ suf ≠ "" := by
    intro heq
    have h_nil := congrArg String.toList heq
    simp only [String.toList_append, String.toList_empty, List.append_eq_nil_iff] at h_nil
    rw [h_nil.1.2] at hopen
    simp at hopen
  have h_load : loadJson py (pre ++ array ++ suf) = py.loads array := by
    rw [loadJson_of_rejects hrejects h_text, String.toList_append, String.toList_append,
      searchArray_wrapped hopen hclose hpre.1 hsuf.2]
    show py.loads (String.ofList array.toList) = py.loads array
    rw [String.ofList_toList]
  have h_parse : parse py (pre ++ array ++ suf) = parse py array := by
    unfold parse
    rw [h_load, loadJson_of_accepts haccepts h_array]
  refine ⟨h_load, h_parse, fun planner userRequest => ?_⟩
  unfold planSubtasks
  rw [h_parse]

end

/-- An item whose description holds brackets that do not match. -/
def bracketItems : List Json := [describedItem "a ]] [1] [" []]

/-- A list whose texts hold brackets. -/
def bracketText : String :=
  "[\x7b\"description\": \"a ]] [1] [\",\n \"depends_on\": []\x7d]"

theorem decoding_rejects {text text' : String} {items : List Json} (h : text' ≠ text) :
    (decoding text items).loads text' = none := if_neg h

theorem loadJson_wrapped_brackets :
    loadJson (decoding bracketText bracketItems) ("The plan:\n" ++ bracketText ++ "\nDone.") =
        (decoding bracketText bracketItems).loads bracketText ∧
      parse (decoding bracketText bracketItems) ("The plan:\n" ++ bracketText ++ "\nDone.") =
        parse (decoding bracketText bracketItems) bracketText ∧
      ∀ (planner : Planner) (userRequest : String),
        planner.planSubtasks (decoding bracketText bracketItems) userRequest
            ("The plan:\n" ++ bracketText ++ "\nDone.") =
          planner.planSubtasks (decoding bracketText bracketItems) userRequest bracketText :=
  loadJson_wrapped (by decide +kernel) (by decide +kernel) (by decide +kernel) (by decide +kernel)
    (by decide +kernel) (decoding_rejects (by decide +kernel))

end Planner

end AgenticExecution
