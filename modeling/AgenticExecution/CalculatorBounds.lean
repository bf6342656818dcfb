import AgenticExecution.CalculatorGrammar
import AgenticExecution.Library.BitLength

set_option autoImplicit false

/-! # How large the calculator's integers get

The guard of `**` bounds one exponent, so a power makes its base at most 256 times as long. A power whose
base holds powers multiplies once more: the bound on an integer grows with how deep powers stand in the
bases of powers, and nothing else makes it grow. -/

namespace AgenticExecution

variable {F : Type} {py : Numerics F} {node sub child : Node F} {n : Int}

namespace Node

mutual

/-- The sum of `weight` over the nodes of a tree. -/
def total (weight : Node F → Nat) : Node F → Nat
  | .constant value => weight (.constant value)
  | .binOp left op right => weight (.binOp left op right) + total weight left + total weight right
  | .unaryOp op operand => weight (.unaryOp op operand) + total weight operand
  | .name id => weight (.name id)
  | .call func args keywords =>
    weight (.call func args keywords) + total weight func + totalOf weight args +
      totalOf weight keywords
  | .other kind children => weight (.other kind children) + totalOf weight children

/-- The sum of `weight` over the nodes of several trees. -/
def totalOf (weight : Node F → Nat) : List (Node F) → Nat
  | [] => 0
  | a :: rest => total weight a + totalOf weight rest

end

/-- The bit length of an integer literal. -/
def literalWeight : Node F → Nat
  | .constant (.int n) => bitLength n
  | _ => 0

/-- The total bit length of the literals. -/
def literalBits (node : Node F) : Nat := total literalWeight node

/-- The number of nodes. -/
def size (node : Node F) : Nat := total (fun _ => 1) node

mutual

/-- How many powers stand in the base of one another. -/
def powerDepth : Node F → Nat
  | .constant _ => 0
  | .binOp left .pow right => max (powerDepth left + 1) (powerDepth right)
  | .binOp left _ right => max (powerDepth left) (powerDepth right)
  | .unaryOp _ operand => powerDepth operand
  | .name _ => 0
  | .call func args keywords =>
    max (powerDepth func) (max (powerDepthOf args) (powerDepthOf keywords))
  | .other _ children => powerDepthOf children

/-- The largest depth among several trees. -/
def powerDepthOf : List (Node F) → Nat
  | [] => 0
  | a :: rest => max (powerDepth a) (powerDepthOf rest)

end

/-- An integer expression: literals, `+ - * // % **`, signs, `abs`, `min` and `max`. -/
inductive IntegerExpr : Node F → Prop
  | literal (n : Int) : IntegerExpr (.constant (.int n))
  | binOp {left right : Node F} {op : BinaryOperator}
      (hop : op ∈ [BinaryOperator.add, .sub, .mult, .floorDiv, .mod, .pow])
      (hleft : IntegerExpr left) (hright : IntegerExpr right) : IntegerExpr (.binOp left op right)
  | unaryOp {operand : Node F} {op : UnaryOperator} (hop : op ∈ Calculator.unary)
      (hoperand : IntegerExpr operand) : IntegerExpr (.unaryOp op operand)
  | call {id : String} {args : List (Node F)} (hid : id ∈ ["abs", "min", "max"])
      (hargs : ∀ a ∈ args, IntegerExpr a) : IntegerExpr (.call (.name id) args [])

/-! ## Measures of a tree bound those of its subtrees -/

theorem total_le_totalOf (weight : Node F → Nat) {args : List (Node F)} {a : Node F} (h : a ∈ args) :
    total weight a ≤ totalOf weight args := by
  induction args with
  | nil => cases h
  | cons b rest ih =>
      rw [totalOf]
      obtain rfl | hrest := List.mem_cons.1 h
      · exact Nat.le_add_right _ _
      · exact (ih hrest).trans (Nat.le_add_left _ _)

theorem powerDepth_le_powerDepthOf {args : List (Node F)} {a : Node F} (h : a ∈ args) :
    powerDepth a ≤ powerDepthOf args := by
  induction args with
  | nil => cases h
  | cons b rest ih =>
      rw [powerDepthOf]
      obtain rfl | hrest := List.mem_cons.1 h
      · exact Nat.le_max_left _ _
      · exact (ih hrest).trans (Nat.le_max_right _ _)

theorem mem_children_call {func : Node F} {args keywords : List (Node F)}
    (h : child ∈ (Node.call func args keywords).children) :
    child = func ∨ child ∈ args ∨ child ∈ keywords := by
  cases func with
  | name id =>
      rw [children] at h
      split_ifs at h with hid
      · exact Or.inr (List.mem_append.1 h)
      · simpa [or_assoc] using h
  | _ => simpa [children, or_assoc] using h

theorem total_le_of_mem_children {weight : Node F → Nat} (h : child ∈ node.children) :
    total weight child ≤ total weight node := by
  cases node with
  | constant | name => cases h
  | binOp left op right =>
      rw [total]
      obtain rfl | h := List.mem_cons.1 h
      · omega
      · obtain rfl := List.mem_singleton.1 h
        omega
  | unaryOp op operand =>
      rw [total]
      obtain rfl := List.mem_singleton.1 h
      omega
  | call func args keywords =>
      rw [total]
      obtain rfl | hargs | hkeywords := mem_children_call h
      · omega
      · have := total_le_totalOf weight hargs
        omega
      · have := total_le_totalOf weight hkeywords
        omega
  | other kind children =>
      rw [total]
      exact (total_le_totalOf weight h).trans (Nat.le_add_left _ _)

theorem powerDepth_binOp_left (left : Node F) (op : BinaryOperator) (right : Node F) :
    powerDepth left ≤ powerDepth (.binOp left op right) := by
  cases op with
  | pow => exact (Nat.le_succ _).trans (Nat.le_max_left _ _)
  | _ => exact Nat.le_max_left _ _

theorem powerDepth_binOp_right (left : Node F) (op : BinaryOperator) (right : Node F) :
    powerDepth right ≤ powerDepth (.binOp left op right) := by
  cases op with
  | _ => exact Nat.le_max_right _ _

theorem powerDepth_le_of_mem_children (h : child ∈ node.children) :
    powerDepth child ≤ powerDepth node := by
  cases node with
  | constant | name => cases h
  | binOp left op right =>
      obtain rfl | h := List.mem_cons.1 h
      · exact powerDepth_binOp_left _ op right
      · obtain rfl := List.mem_singleton.1 h
        exact powerDepth_binOp_right left op _
  | unaryOp op operand =>
      obtain rfl := List.mem_singleton.1 h
      exact le_rfl
  | call func args keywords =>
      rw [powerDepth]
      obtain rfl | hargs | hkeywords := mem_children_call h
      · exact le_max_left _ _
      · exact (powerDepth_le_powerDepthOf hargs).trans ((le_max_left _ _).trans (le_max_right _ _))
      · exact (powerDepth_le_powerDepthOf hkeywords).trans ((le_max_right _ _).trans (le_max_right _ _))
  | other kind children => exact powerDepth_le_powerDepthOf h

/-- The nodes below an integer expression are integer expressions. -/
theorem IntegerExpr.of_mem_children (h : child ∈ node.children) (hnode : IntegerExpr node) :
    IntegerExpr child := by
  cases hnode with
  | literal n => cases h
  | binOp hop hleft hright =>
      obtain rfl | h := List.mem_cons.1 h
      · exact hleft
      · obtain rfl := List.mem_singleton.1 h
        exact hright
  | unaryOp hop hoperand =>
      obtain rfl := List.mem_singleton.1 h
      exact hoperand
  | call hid hargs =>
      have hlisted : ∀ id ∈ ["abs", "min", "max"], id ∈ Calculator.funcs := by decide
      rw [children, if_pos (hlisted _ hid), List.append_nil] at h
      exact hargs child h

/-! ## The bound of a tree -/

/-- Without powers the literals bound every integer; each further depth of powers makes it 256 times as
    long. -/
def sizeCap (depth bits nodes : Nat) : Nat :=
  if depth = 0 then bits else 256 ^ (depth - 1) * (256 * bits + nodes)

theorem sizeCap_mono {depth depth' bits bits' nodes nodes' : Nat} (hdepth : depth ≤ depth')
    (hbits : bits ≤ bits') (hnodes : nodes ≤ nodes') :
    sizeCap depth bits nodes ≤ sizeCap depth' bits' nodes' := by
  unfold sizeCap
  split_ifs with h h'
  · exact hbits
  · calc bits ≤ 256 * bits' + nodes' := by omega
      _ ≤ 256 ^ (depth' - 1) * (256 * bits' + nodes') := Nat.le_mul_of_pos_left _ (by positivity)
  · omega
  · exact Nat.mul_le_mul (Nat.pow_le_pow_right (by omega) (by omega)) (by omega)

/-- Operands of one operator share its bound. -/
theorem sizeCap_add_le (depth bits bits' nodes nodes' : Nat) :
    sizeCap depth bits nodes + sizeCap depth bits' nodes' ≤
      sizeCap depth (bits + bits') (nodes + nodes') := by
  unfold sizeCap
  split_ifs with h
  · exact le_rfl
  · rw [← mul_add]
    exact Nat.mul_le_mul_left _ (by omega)

/-- A power takes one more depth and one more node. -/
theorem sizeCap_pow_le (depth bits nodes : Nat) :
    256 * sizeCap depth bits nodes + 1 ≤ sizeCap (depth + 1) bits (nodes + 1) := by
  unfold sizeCap
  rw [if_neg (Nat.succ_ne_zero depth), Nat.add_sub_cancel]
  split_ifs with h
  · subst h
    omega
  · have hpow : 256 ^ depth = 256 * 256 ^ (depth - 1) := by
      rw [← pow_succ', Nat.sub_add_cancel (Nat.pos_of_ne_zero h)]
    have hpos : 0 < 256 ^ depth := by positivity
    calc 256 * (256 ^ (depth - 1) * (256 * bits + nodes)) + 1
        = 256 ^ depth * (256 * bits + nodes) + 1 := by rw [hpow, mul_assoc]
      _ ≤ 256 ^ depth * (256 * bits + nodes) + 256 ^ depth := by omega
      _ = 256 ^ depth * (256 * bits + (nodes + 1)) := by ring

/-- The bound of a tree. -/
def cap (node : Node F) : Nat := sizeCap node.powerDepth node.literalBits node.size

theorem cap_le_of_mem_children (h : child ∈ node.children) : cap child ≤ cap node :=
  sizeCap_mono (powerDepth_le_of_mem_children h) (total_le_of_mem_children h)
    (total_le_of_mem_children h)

theorem cap_binOp (left : Node F) (op : BinaryOperator) (right : Node F) :
    cap left + cap right ≤ cap (.binOp left op right) := by
  have hbits : literalBits (.binOp left op right) = literalBits left + literalBits right := by
    simp [literalBits, total, literalWeight]
  have hsize : size (.binOp left op right) = 1 + size left + size right := rfl
  calc cap left + cap right
      ≤ sizeCap (powerDepth (.binOp left op right)) left.literalBits left.size +
          sizeCap (powerDepth (.binOp left op right)) right.literalBits right.size :=
        Nat.add_le_add (sizeCap_mono (powerDepth_binOp_left left op right) le_rfl le_rfl)
          (sizeCap_mono (powerDepth_binOp_right left op right) le_rfl le_rfl)
    _ ≤ sizeCap (powerDepth (.binOp left op right)) (left.literalBits + right.literalBits)
          (left.size + right.size) := sizeCap_add_le _ _ _ _ _
    _ ≤ cap (.binOp left op right) := sizeCap_mono le_rfl hbits.ge (by omega)

theorem cap_pow (left right : Node F) : 256 * cap left + 1 ≤ cap (.binOp left .pow right) := by
  have hbits : literalBits left ≤ literalBits (.binOp left .pow right) :=
    total_le_of_mem_children (List.mem_cons_self ..)
  have hsize : size (.binOp left .pow right) = 1 + size left + size right := rfl
  exact (sizeCap_pow_le _ _ _).trans (sizeCap_mono (Nat.le_max_left _ _) hbits (by omega))

end Node

namespace Calculator

open Node

/-- What Python computes in floats is not an integer. -/
theorem map_inexact_ne_int {x : Except Exn F} : x.map Number.inexact ≠ .ok (.int n) := by
  cases x with
  | error | ok => simp [Except.map]

/-- An operator gives an integer only on integers. -/
theorem applyBinary_int {op : BinaryOperator} {l r : Number F}
    (h : applyBinary py op l r = .ok (.int n)) : ∃ a b, l = .int a ∧ r = .int b := by
  cases l with
  | inexact x => exact absurd h (by cases op <;> exact map_inexact_ne_int)
  | int a =>
      cases r with
      | inexact x => exact absurd h (by cases op <;> exact map_inexact_ne_int)
      | int b => exact ⟨a, b, rfl, rfl⟩

/-- An operator on integers gives an integer within the operands' bound. -/
theorem applyBinary_bitLength {op : BinaryOperator} {a b : Int}
    (hguard : guardExponent py op (.int b) = .ok ())
    (h : applyBinary py op (.int a) (.int b) = .ok (.int n)) :
    bitLength n ≤ bitLength a + bitLength b ∨
      op = .pow ∧ bitLength n ≤ 256 * bitLength a + 1 := by
  cases op with
  | add =>
      obtain rfl : a + b = n := by simpa [applyBinary] using h
      exact Or.inl (bitLength_add_le a b)
  | sub =>
      obtain rfl : a - b = n := by simpa [applyBinary] using h
      exact Or.inl (bitLength_sub_le a b)
  | mult =>
      obtain rfl : a * b = n := by simpa [applyBinary] using h
      exact Or.inl (bitLength_mul_le a b)
  | floorDiv =>
      rw [applyBinary] at h
      split_ifs at h
      obtain rfl : a.fdiv b = n := by simpa using h
      exact Or.inl ((bitLength_fdiv_le a b).trans (Nat.le_add_right _ _))
  | mod =>
      rw [applyBinary] at h
      split_ifs at h with hb
      obtain rfl : a.fmod b = n := by simpa using h
      exact Or.inl ((bitLength_fmod_le a hb).trans (Nat.le_add_left _ _))
  | pow =>
      rw [applyBinary] at h
      split_ifs at h with hb
      · obtain rfl : a ^ b.toNat = n := by simpa using h
        have hsmall : b.toNat ≤ 256 := by
          by_contra hlarge
          have : 256 < b.natAbs := by omega
          rw [guardExponent, if_pos rfl, exceeds, decide_eq_true this] at hguard
          cases hguard
        refine Or.inr ⟨rfl, (bitLength_pow_le a _).trans ?_⟩
        exact Nat.add_le_add_right (Nat.mul_le_mul_right _ hsmall) 1
      · exact absurd h map_inexact_ne_int
  | _ => exact absurd h map_inexact_ne_int

/-- A sign keeps the length. -/
theorem applyUnary_int {op : UnaryOperator} {x : Number F} (h : applyUnary py op x = .int n) :
    ∃ m, x = .int m ∧ bitLength n = bitLength m := by
  cases x with
  | inexact x => cases op <;> cases h
  | int m =>
      refine ⟨m, rfl, ?_⟩
      cases op with
      | uSub =>
          obtain rfl : -m = n := by simpa [applyUnary] using h
          exact bitLength_neg m
      | _ =>
          obtain rfl : m = n := by simpa [applyUnary] using h
          rfl

theorem mem_of_select {better : Number F → Number F → Except Exn Bool} {kept v : Number F}
    {rest : List (Number F)} (h : select better kept rest = .ok v) : v ∈ kept :: rest := by
  induction rest generalizing kept with
  | nil =>
      obtain rfl : kept = v := by simpa [select] using h
      exact List.mem_cons_self ..
  | cons x rest ih =>
      rw [select] at h
      obtain ⟨replace, -, h⟩ := ok_of_bind h
      have hmem := ih h
      split_ifs at hmem
      · exact List.mem_cons_of_mem _ hmem
      · obtain rfl | hrest := List.mem_cons.1 hmem
        · exact List.mem_cons_self ..
        · exact List.mem_cons_of_mem _ (List.mem_cons_of_mem _ hrest)

/-- `min` and `max` give one of their arguments. -/
theorem mem_of_selectFrom {id : String} {better : Number F → Number F → Except Exn Bool}
    {xs : List (Number F)} {v : Number F} (h : selectFrom py id better xs = .ok v) : v ∈ xs := by
  unfold selectFrom at h
  split at h
  · cases h
  · cases h
  · exact mem_of_select h

/-- An integer from `abs`, `min` or `max` is as long as one of the arguments. -/
theorem callFunction_int {id : String} {xs : List (Number F)} (hid : id ∈ ["abs", "min", "max"])
    (h : callFunction py id xs = .ok (.int n)) :
    ∃ m, Number.int m ∈ xs ∧ bitLength n = bitLength m := by
  simp only [List.mem_cons, List.not_mem_nil, or_false] at hid
  obtain rfl | rfl | rfl := hid
  · change callAbs py xs = _ at h
    unfold callAbs at h
    split at h
    · rename_i m
      obtain rfl : (m.natAbs : Int) = n := by simpa using h
      exact ⟨m, List.mem_cons_self .., bitLength_natAbs m⟩
    · exact absurd h map_inexact_ne_int
    · cases h
  · exact ⟨n, mem_of_selectFrom h, rfl⟩
  · exact ⟨n, mem_of_selectFrom h, rfl⟩

theorem exists_arg_of_evalArgs {args : List (Node F)} {xs : List (Number F)} {v : Number F}
    (h : evalArgs py args = .ok xs) (hv : v ∈ xs) : ∃ a ∈ args, eval py a = .ok v := by
  induction args generalizing xs with
  | nil =>
      obtain rfl : [] = xs := by simpa [evalArgs] using h
      cases hv
  | cons a rest ih =>
      rw [evalArgs] at h
      obtain ⟨w, hw, h⟩ := ok_of_bind h
      obtain ⟨ws, hws, h⟩ := ok_of_bind h
      obtain rfl : w :: ws = xs := by simpa using h
      obtain rfl | hrest := List.mem_cons.1 hv
      · exact ⟨a, List.mem_cons_self .., hw⟩
      · obtain ⟨b, hb, hvalue⟩ := ih hws hrest
        exact ⟨b, List.mem_cons_of_mem _ hb, hvalue⟩

/-- An integer expression's value stays within the bound of its tree. -/
theorem bitLength_le_cap (hnode : IntegerExpr node) (h : eval py node = .ok (.int n)) :
    bitLength n ≤ cap node := by
  induction hnode generalizing n with
  | literal m =>
      obtain rfl : m = n := by simpa [eval] using h
      exact le_rfl
  | @binOp left right op _ _ _ ihleft ihright =>
      obtain ⟨-, l, r, hl, hr, hguard, h⟩ := eval_binOp_ok h
      obtain ⟨a, b, rfl, rfl⟩ := applyBinary_int h
      have ha := ihleft hl
      have hb := ihright hr
      obtain hsum | ⟨rfl, hpow⟩ := applyBinary_bitLength hguard h
      · have := cap_binOp left op right
        omega
      · have := cap_pow left right
        omega
  | @unaryOp operand op _ _ ih =>
      obtain ⟨-, x, hx, h⟩ := eval_unaryOp_ok h
      obtain ⟨m, rfl, hlength⟩ := applyUnary_int h
      rw [hlength]
      exact (ih hx).trans (cap_le_of_mem_children (List.mem_cons_self ..))
  | @call id args hid _ ih =>
      obtain ⟨_, hname, -, hlisted, xs, hxs, h⟩ := eval_call_ok h
      obtain rfl := Node.name.inj hname
      obtain ⟨m, hm, hlength⟩ := callFunction_int hid h
      obtain ⟨a, ha, hvalue⟩ := exists_arg_of_evalArgs hxs hm
      rw [hlength]
      refine (ih a ha hvalue).trans (cap_le_of_mem_children ?_)
      rw [children, if_pos hlisted, List.append_nil]
      exact ha

theorem integerExpr_of_within (hsub : Within sub node) (hnode : IntegerExpr node) :
    IntegerExpr sub := by
  induction hsub with
  | self => exact hnode
  | deeper hchild _ ih => exact ih (hnode.of_mem_children hchild)

theorem cap_le_of_within (hsub : Within sub node) : cap sub ≤ cap node := by
  induction hsub with
  | self => exact le_rfl
  | deeper hchild _ ih => exact ih.trans (cap_le_of_mem_children hchild)

theorem sizeCap_le (depth bits nodes : Nat) :
    sizeCap depth bits nodes ≤ 256 ^ (depth - 1) * (256 * bits + nodes) := by
  unfold sizeCap
  split_ifs with h
  · subst h
    omega
  · exact le_rfl

/-- Every integer that comes up in an integer expression has at most
    `256 ^ (powerDepth - 1) * (256 * literalBits + size)` binary digits. -/
theorem bitLength_le_of_within (hnode : IntegerExpr node) (hsub : Within sub node)
    (h : eval py sub = .ok (.int n)) :
    bitLength n ≤ 256 ^ (node.powerDepth - 1) * (256 * node.literalBits + node.size) :=
  calc bitLength n ≤ cap sub := bitLength_le_cap (integerExpr_of_within hsub hnode) h
    _ ≤ cap node := cap_le_of_within hsub
    _ ≤ 256 ^ (node.powerDepth - 1) * (256 * node.literalBits + node.size) := sizeCap_le _ _ _

/-- A calculator without floats; trees of integers do not come across them. -/
def withoutFloats : Numerics Unit where
  pi := ()
  e := ()
  binary _ _ _ := .error (toolError "no floats")
  neg _ := ()
  abs _ := .ok ()
  exceeds _ := .ok false
  less _ _ := .ok false
  function _ _ := .error (toolError "no floats")
  typeName _ := "float"
  toInt? _ := none
  str _ := "0.0"

/-- `abs(-3) ** 4`. -/
def fourthPower : Node Unit :=
  .binOp (.call (.name "abs") [.unaryOp .uSub (.constant (.int 3))] []) .pow (.constant (.int 4))

/-- `max(abs(-3) ** 4, 10 // 3)`. -/
def largest : Node Unit :=
  .call (.name "max")
    [fourthPower, .binOp (.constant (.int 10)) .floorDiv (.constant (.int 3))] []

/-- The `81` of `abs(-3) ** 4` comes up in `max(abs(-3) ** 4, 10 // 3)`. -/
theorem bitLength_le_of_within_largest : bitLength 81 ≤ 256 ^ 0 * (256 * (2 + 3 + 4 + 2) + 11) := by
  have habs : IntegerExpr (.call (.name "abs") [.unaryOp .uSub (.constant (.int 3))] [] : Node Unit) :=
    .call (by decide) (List.forall_mem_singleton.2 (.unaryOp (by decide) (.literal 3)))
  have hpower : IntegerExpr fourthPower := .binOp (by decide) habs (.literal 4)
  have hquotient : IntegerExpr
      (.binOp (.constant (.int 10)) .floorDiv (.constant (.int 3)) : Node Unit) :=
    .binOp (by decide) (.literal 10) (.literal 3)
  have hnode : IntegerExpr largest :=
    .call (by decide) (List.forall_mem_cons.2 ⟨hpower, List.forall_mem_singleton.2 hquotient⟩)
  have hvalue : eval withoutFloats fourthPower = .ok (.int 81) := rfl
  exact bitLength_le_of_within hnode (.deeper (List.mem_cons_self ..) .self) hvalue

/-! ## Powers of powers -/

/-- `((2 ** 256) ** 256) …`, with `depth` powers. -/
def tower (F : Type) : Nat → Node F
  | 0 => .constant (.int 2)
  | depth + 1 => .binOp (tower F depth) .pow (.constant (.int 256))

theorem integerExpr_tower (depth : Nat) : IntegerExpr (tower F depth) := by
  induction depth with
  | zero => exact .literal 2
  | succ depth ih => exact .binOp (by decide) ih (.literal 256)

theorem literalBits_tower (depth : Nat) : (tower F depth).literalBits = 9 * depth + 2 := by
  induction depth with
  | zero =>
      show bitLength 2 = 2
      decide
  | succ depth ih =>
      have hpower : literalBits (tower F (depth + 1)) =
          0 + literalBits (tower F depth) + bitLength 256 := rfl
      have h256 : bitLength 256 = 9 := by decide
      omega

theorem size_tower (depth : Nat) : (tower F depth).size = 2 * depth + 1 := by
  induction depth with
  | zero => rfl
  | succ depth ih =>
      have hpower : size (tower F (depth + 1)) = 1 + size (tower F depth) + 1 := rfl
      omega

/-- No exponent is above 256, and with every further power the value is 256 times as long. -/
theorem eval_tower (py : Numerics F) (depth : Nat) :
    eval py (tower F depth) = .ok (.int (2 ^ 256 ^ depth)) := by
  induction depth with
  | zero => rfl
  | succ depth ih =>
      have hguard : guardExponent py .pow (.int 256) = .ok () := rfl
      have hpow : ((2 : Int) ^ 256 ^ depth) ^ (256 : Int).toNat = 2 ^ 256 ^ (depth + 1) := by
        rw [pow_succ, pow_mul]
        rfl
      rw [tower, eval, if_pos (by decide), ih, eval]
      change (guardExponent py .pow (.int 256) >>= fun _ =>
        applyBinary py .pow (.int (2 ^ 256 ^ depth)) (.int 256)) = _
      rw [hguard, ← hpow]
      rfl

/-- `(2 ** 256) ** 256` is evaluated, to more than `256 * 20 + 5` binary digits. -/
theorem tower_two_exceeds :
    IntegerExpr (tower Unit 2) ∧ eval withoutFloats (tower Unit 2) = .ok (.int (2 ^ 256 ^ 2)) ∧
      256 * (tower Unit 2).literalBits + (tower Unit 2).size < bitLength (2 ^ 256 ^ 2) := by
  refine ⟨integerExpr_tower 2, eval_tower withoutFloats 2, ?_⟩
  rw [literalBits_tower, size_tower, bitLength_two_pow]
  decide

end Calculator

end AgenticExecution
