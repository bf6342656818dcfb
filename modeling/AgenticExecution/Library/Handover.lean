import AgenticExecution.Library.Pool

set_option autoImplicit false

/-! # Handing obligations over

Open obligations are carried by a shared store or by a thread of a pool. A thread that moves may hand
what it carries over to the store or take it from there; nothing is lost as long as each obligation
that one side gives up is taken by the other. -/

namespace Handover

variable {α ν : Type*} {store store' : ν → Prop} {carries : α → ν → Prop} {l : List α} {i : ℕ}
  {a b : α} {n : ν}

/-- The obligation is in the store or with a thread. -/
def Carried (store : ν → Prop) (carries : α → ν → Prop) (l : List α) (n : ν) : Prop :=
  store n ∨ ∃ x ∈ l, carries x n

theorem Carried.stored (h : store n) : Carried store carries l n := .inl h

theorem Carried.thread (hi : l[i]? = some a) (h : carries a n) : Carried store carries l n :=
  .inr ⟨a, List.mem_of_getElem? hi, h⟩

/-- The moved thread carries it. -/
theorem Carried.moved (hi : l[i]? = some a) (h : carries b n) :
    Carried store carries (l.set i b) n :=
  .inr ⟨b, Pool.mem_set_self hi, h⟩

/-- The new thread carries it. -/
theorem Carried.spawned (h : carries b n) : Carried store carries (l ++ [b]) n :=
  .inr ⟨b, by simp, h⟩

/-- A move of thread `i` after which what it gave up is in the store, and what left the store is with
    it. -/
theorem Carried.set (h : Carried store carries l n) (hi : l[i]? = some a)
    (hstore : store n → store' n ∨ carries b n) (hthread : carries a n → carries b n ∨ store' n) :
    Carried store' carries (l.set i b) n := by
  rcases h with h | ⟨x, hx, hn⟩
  · rcases hstore h with h | h
    · exact .stored h
    · exact .moved hi h
  · by_cases ha : carries a n
    · rcases hthread ha with h | h
      · exact .moved hi h
      · exact .stored h
    · exact .inr (Pool.exists_set_of_ne hi ha ⟨x, hx, hn⟩)

/-- The start of a thread that takes over what left the store. -/
theorem Carried.spawn (h : Carried store carries l n) (hstore : store n → store' n ∨ carries b n) :
    Carried store' carries (l ++ [b]) n := by
  rcases h with h | ⟨x, hx, hn⟩
  · rcases hstore h with h | h
    · exact .stored h
    · exact .spawned h
  · exact .inr ⟨x, List.mem_append_left _ hx, hn⟩

/-- With an empty store and no carrying thread nothing is open. -/
theorem not_carried (hstore : ¬ store n) (hl : ∀ x ∈ l, ¬ carries x n) :
    ¬ Carried store carries l n := by
  rintro (h | ⟨x, hx, hn⟩)
  · exact hstore h
  · exact hl x hx hn

end Handover
