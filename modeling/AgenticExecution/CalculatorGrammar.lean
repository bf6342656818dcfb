import AgenticExecution.Calculator

set_option autoImplicit false

/-! # What the calculator accepts

A value comes out only of a tree in which every node is whitelisted: a node that gives a value passes
its own test, and all nodes below it gave values. Trees of integer literals, `+`, `-`, `*` and signs
give their exact value. -/

namespace AgenticExecution

variable {F : Type} {py : Numerics F} {node sub : Node F} {v : Number F}

namespace Node

/-- The nodes below a node. The plain name of a listed function belongs to its call. -/
def children : Node F → List (Node F)
  | .constant _ => []
  | .binOp left _ right => [left, right]
  | .unaryOp _ operand => [operand]
  | .name _ => []
  | .call (.name id) args keywords =>
    if id ∈ Calculator.funcs then args ++ keywords else .name id :: args ++ keywords
  | .call func args keywords => func :: args ++ keywords
  | .other _ children => children

/-- `sub` is a node of the tree. -/
inductive Within (sub : Node F) : Node F → Prop
  | self : Within sub sub
  | deeper {child node : Node F} (hchild : child ∈ node.children) (h : Within sub child) :
      Within sub node

/-- A non-boolean `int` or `float`, one of the seven operators, a sign, `pi` or `e`, or a keyword-free
    call of one of the eight functions by its plain name. -/
def permitted : Node F → Bool
  | .constant (.int _) | .constant (.float _) => true
  | .binOp _ op _ => [.add, .sub, .mult, .div, .floorDiv, .mod, .pow].contains op
  | .unaryOp op _ => op = .uAdd || op = .uSub
  | .name id => id = "pi" || id = "e"
  | .call (.name id) _ [] =>
    ["sqrt", "abs", "round", "min", "max", "floor", "ceil", "log"].contains id
  | _ => false

end Node

/-! ## Trees of exact integers -/

/-- An expression of integer literals, `+`, `-`, `*` and signs. -/
inductive IntegerTerm
  | literal (n : Int)
  | add (left right : IntegerTerm)
  | sub (left right : IntegerTerm)
  | mult (left right : IntegerTerm)
  | pos (operand : IntegerTerm)
  | neg (operand : IntegerTerm)

namespace IntegerTerm

/-- Its tree. -/
def toNode (F : Type) : IntegerTerm → Node F
  | .literal n => .constant (.int n)
  | .add left right => .binOp (left.toNode F) .add (right.toNode F)
  | .sub left right => .binOp (left.toNode F) .sub (right.toNode F)
  | .mult left right => .binOp (left.toNode F) .mult (right.toNode F)
  | .pos operand => .unaryOp .uAdd (operand.toNode F)
  | .neg operand => .unaryOp .uSub (operand.toNode F)

/-- Its value. -/
def value : IntegerTerm → Int
  | .literal n => n
  | .add left right => left.value + right.value
  | .sub left right => left.value - right.value
  | .mult left right => left.value * right.value
  | .pos operand => operand.value
  | .neg operand => -operand.value

end IntegerTerm

namespace Calculator

/-- What gives a value gave one at each step. -/
theorem ok_of_bind {α β : Type} {x : Except Exn α} {f : α → Except Exn β} {b : β}
    (h : (x >>= f) = .ok b) : ∃ a, x = .ok a ∧ f a = .ok b := by
  cases x with
  | error exc => cases h
  | ok a => exact ⟨a, rfl, h⟩

/-! ### What gave a value -/

theorem eval_binOp_ok {left right : Node F} {op : BinaryOperator}
    (h : eval py (.binOp left op right) = .ok v) :
    op ∈ binops ∧ ∃ l r, eval py left = .ok l ∧ eval py right = .ok r ∧
      guardExponent py op r = .ok () ∧ applyBinary py op l r = .ok v := by
  rw [eval] at h
  split_ifs at h with hop
  obtain ⟨l, hl, h⟩ := ok_of_bind h
  obtain ⟨r, hr, h⟩ := ok_of_bind h
  obtain ⟨_, hguard, h⟩ := ok_of_bind h
  exact ⟨hop, l, r, hl, hr, hguard, h⟩

theorem eval_unaryOp_ok {op : UnaryOperator} {operand : Node F}
    (h : eval py (.unaryOp op operand) = .ok v) :
    op ∈ unary ∧ ∃ x, eval py operand = .ok x ∧ applyUnary py op x = v := by
  rw [eval] at h
  split_ifs at h with hop
  obtain ⟨x, hx, h⟩ := ok_of_bind h
  exact ⟨hop, x, hx, Except.ok.inj h⟩

theorem eval_call_ok {func : Node F} {args keywords : List (Node F)}
    (h : eval py (.call func args keywords) = .ok v) :
    ∃ id, func = .name id ∧ keywords = [] ∧ id ∈ funcs ∧
      ∃ xs, evalArgs py args = .ok xs ∧ callFunction py id xs = .ok v := by
  cases func with
  | name id =>
      cases keywords with
      | cons keyword keywords => cases h
      | nil =>
          rw [eval] at h
          split_ifs at h with hid
          obtain ⟨xs, hxs, h⟩ := ok_of_bind h
          exact ⟨id, rfl, rfl, hid, xs, hxs, h⟩
  | _ => cases h

/-- Arguments that were evaluated all gave a value. -/
theorem evalArgs_ok {args : List (Node F)} {vs : List (Number F)} (h : evalArgs py args = .ok vs) :
    ∀ a ∈ args, ∃ v, eval py a = .ok v := by
  induction args generalizing vs with
  | nil => simp
  | cons a rest ih =>
      rw [evalArgs] at h
      obtain ⟨v, hv, h⟩ := ok_of_bind h
      obtain ⟨ws, hws, -⟩ := ok_of_bind h
      exact List.forall_mem_cons.2 ⟨⟨v, hv⟩, ih hws⟩

/-- A node that gives a value is whitelisted, and the nodes below it gave values. -/
theorem eval_ok (h : eval py node = .ok v) :
    node.permitted = true ∧ ∀ child ∈ node.children, ∃ v, eval py child = .ok v := by
  cases node with
  | constant value =>
      cases value with
      | int | float => exact ⟨rfl, by simp [Node.children]⟩
      | _ => cases h
  | binOp left op right =>
      obtain ⟨hop, l, r, hl, hr, -⟩ := eval_binOp_ok h
      refine ⟨List.contains_iff_mem.2 hop, ?_⟩
      exact List.forall_mem_cons.2 ⟨⟨l, hl⟩, List.forall_mem_singleton.2 ⟨r, hr⟩⟩
  | unaryOp op operand =>
      obtain ⟨hop, x, hx, -⟩ := eval_unaryOp_ok h
      refine ⟨?_, List.forall_mem_singleton.2 ⟨x, hx⟩⟩
      simpa [unary, Node.permitted] using hop
  | name id =>
      refine ⟨?_, by simp [Node.children]⟩
      by_contra hid
      simp only [Node.permitted, Bool.or_eq_true, decide_eq_true_eq, not_or] at hid
      have hpi : (id == "pi") = false := beq_false_of_ne hid.1
      have he : (id == "e") = false := beq_false_of_ne hid.2
      simp only [eval, names, List.lookup_cons, List.lookup_nil, hpi, he] at h
      cases h
  | call func args keywords =>
      obtain ⟨id, rfl, rfl, hid, xs, hxs, -⟩ := eval_call_ok h
      refine ⟨List.contains_iff_mem.2 hid, ?_⟩
      rw [Node.children, if_pos hid, List.append_nil]
      exact evalArgs_ok hxs
  | other => cases h

/-- Every node of a tree that gives a value is whitelisted. -/
theorem permitted_of_within (hsub : Node.Within sub node) (h : eval py node = .ok v) :
    sub.permitted = true := by
  induction hsub generalizing v with
  | self => exact (eval_ok h).1
  | deeper hchild _ ih =>
      obtain ⟨v', hv'⟩ := (eval_ok h).2 _ hchild
      exact ih hv'

theorem eval_integerTerm (py : Numerics F) (t : IntegerTerm) :
    eval py (t.toNode F) = .ok (.int t.value) := by
  induction t with
  | literal n => rfl
  | add left right ihl ihr | sub left right ihl ihr | mult left right ihl ihr =>
      rw [IntegerTerm.toNode, eval, ihl, ihr]
      rfl
  | pos operand ih | neg operand ih =>
      rw [IntegerTerm.toNode, eval, ih]
      rfl

/-- `_eval` gives a value only for trees of whitelisted nodes, so one node that is not whitelisted,
    wherever it stands, makes it raise; and on integer literals with `+`, `-`, `*` and signs it gives the
    exact value. -/
theorem eval_exactly_whitelisted (py : Numerics F) :
    (∀ (node : Node F) v, eval py node = .ok v →
      ∀ sub, Node.Within sub node → sub.permitted = true) ∧
      (∀ node sub : Node F, Node.Within sub node → sub.permitted = false →
        ∃ exc, eval py node = .error exc) ∧
      ∀ t : IntegerTerm, eval py (t.toNode F) = .ok (.int t.value) := by
  refine ⟨fun node v h sub hsub => permitted_of_within hsub h, ?_, eval_integerTerm py⟩
  intro node sub hsub hforbidden
  cases heval : eval py node with
  | error exc => exact ⟨exc, rfl⟩
  | ok v =>
      rw [permitted_of_within hsub heval] at hforbidden
      cases hforbidden

end Calculator

end AgenticExecution
