import AgenticExecution.Models
import Mathlib.Data.Int.Basic

set_option autoImplicit false

/-! # The calculator tool

`_eval` walks over the tree `ast.parse` made of an expression. Integers are exact. Floats and complex
numbers, which a power or a quotient of integers may also give, are values of a type `F` whose arithmetic
is a parameter. -/

namespace AgenticExecution

/-- The value of an `ast.Constant`. -/
inductive Constant (F : Type)
  | int (n : Int)
  | float (x : F)
  | bool (b : Bool)
  | str (s : String)
  | complex | bytes | none | ellipsis

/-- `ast.operator`. -/
inductive BinaryOperator
  | add | sub | mult | matMult | div | mod | pow | lShift | rShift | bitOr | bitXor | bitAnd | floorDiv
  deriving DecidableEq

/-- `ast.unaryop`. -/
inductive UnaryOperator
  | invert | not | uAdd | uSub
  deriving DecidableEq

/-- The expression nodes of `ast` that `_eval` has no case for. -/
inductive NodeKind
  | boolOp | namedExpr | lambda | ifExp | dict | set | listComp | setComp | dictComp | generatorExp
  | await | yield | yieldFrom | compare | formattedValue | joinedStr | attribute | subscript | starred
  | list | tuple | slice
  deriving DecidableEq

/-- An expression of `ast`. -/
inductive Node (F : Type)
  | constant (value : Constant F)
  | binOp (left : Node F) (op : BinaryOperator) (right : Node F)
  | unaryOp (op : UnaryOperator) (operand : Node F)
  | name (id : String)
  /-- Of a keyword argument its value. -/
  | call (func : Node F) (args keywords : List (Node F))
  | other (kind : NodeKind) (children : List (Node F))

/-- A Python number. -/
inductive Number (F : Type)
  | int (n : Int)
  | inexact (x : F)

/-- What the calculator uses of floats and complex numbers, and of Python's functions on them. -/
structure Numerics (F : Type) where
  pi : F
  e : F
  /-- An operator that does not give an integer: on inexact operands, a quotient, a negative power. -/
  binary : BinaryOperator → Number F → Number F → Except Exn F
  neg : F → F
  abs : F → Except Exn F
  /-- `abs(x) > 256`. -/
  exceeds : F → Except Exn Bool
  /-- `a < b` when one of them is inexact. -/
  less : Number F → Number F → Except Exn Bool
  /-- A listed function where the cases of `callFunction` do not apply. -/
  function : String → List (Number F) → Except Exn (Number F)
  /-- `type(x).__name__`. -/
  typeName : F → String
  /-- `int(x)` when `x` is a float and `x.is_integer()`. -/
  toInt? : F → Option Int
  str : F → String

namespace Calculator

variable {F : Type}

/-- `ToolError(message)`. -/
def toolError (message : String) : Exn where
  typeName := "ToolError"
  message := message

/-- The keys of `_BINOPS`. -/
def binops : List BinaryOperator := [.add, .sub, .mult, .div, .floorDiv, .mod, .pow]

/-- The keys of `_UNARY`. -/
def unary : List UnaryOperator := [.uAdd, .uSub]

/-- The keys of `_FUNCS`. -/
def funcs : List String := ["sqrt", "abs", "round", "min", "max", "floor", "ceil", "log"]

/-- `_NAMES`. -/
def names (py : Numerics F) : List (String × F) := [("pi", py.pi), ("e", py.e)]

/-- `_BINOPS[type(op)](left, right)`. -/
def applyBinary (py : Numerics F) (op : BinaryOperator) (left right : Number F) :
    Except Exn (Number F) :=
  match op, left, right with
  | .add, .int a, .int b => .ok (.int (a + b))
  | .sub, .int a, .int b => .ok (.int (a - b))
  | .mult, .int a, .int b => .ok (.int (a * b))
  | .floorDiv, .int a, .int b =>
    if b = 0 then .error ⟨"ZeroDivisionError", "integer division or modulo by zero"⟩
    else .ok (.int (a.fdiv b))
  | .mod, .int a, .int b =>
    if b = 0 then .error ⟨"ZeroDivisionError", "integer modulo by zero"⟩ else .ok (.int (a.fmod b))
  | .pow, .int a, .int b =>
    if 0 ≤ b then .ok (.int (a ^ b.toNat))
    else (py.binary .pow (.int a) (.int b)).map .inexact
  | op, left, right => (py.binary op left right).map .inexact

/-- `_UNARY[type(op)](operand)`. -/
def applyUnary (py : Numerics F) (op : UnaryOperator) (operand : Number F) : Number F :=
  match op, operand with
  | .uSub, .int n => .int (-n)
  | .uSub, .inexact x => .inexact (py.neg x)
  | _, operand => operand

/-- `abs(right) > 256`. -/
def exceeds (py : Numerics F) : Number F → Except Exn Bool
  | .int n => .ok (decide (256 < n.natAbs))
  | .inexact x => py.exceeds x

/-- `a < b`. -/
def less (py : Numerics F) : Number F → Number F → Except Exn Bool
  | .int a, .int b => .ok (decide (a < b))
  | a, b => py.less a b

/-- `type(value).__name__`. -/
def typeName (py : Numerics F) : Number F → String
  | .int _ => "int"
  | .inexact x => py.typeName x

/-- `min` and `max` go through their arguments and keep the one they have unless the next is better. -/
def select (better : Number F → Number F → Except Exn Bool) (kept : Number F) :
    List (Number F) → Except Exn (Number F)
  | [] => .ok kept
  | x :: rest => do
    let replace ← better x kept
    select better (if replace then x else kept) rest

/-- `min(*args)` and `max(*args)`; a single argument would have to be iterable. -/
def selectFrom (py : Numerics F) (id : String) (better : Number F → Number F → Except Exn Bool) :
    List (Number F) → Except Exn (Number F)
  | [] => .error ⟨"TypeError", id ++ " expected at least 1 argument, got 0"⟩
  | [x] => .error ⟨"TypeError", "'" ++ typeName py x ++ "' object is not iterable"⟩
  | x :: y :: rest => select better x (y :: rest)

/-- `abs(*args)`. -/
def callAbs (py : Numerics F) : List (Number F) → Except Exn (Number F)
  | [.int n] => .ok (.int n.natAbs)
  | [.inexact x] => (py.abs x).map .inexact
  | args =>
    .error ⟨"TypeError", "abs() takes exactly one argument (" ++ toString args.length ++ " given)"⟩

/-- `_FUNCS[id](*args)`. -/
def callFunction (py : Numerics F) (id : String) (args : List (Number F)) : Except Exn (Number F) :=
  match id with
  | "abs" => callAbs py args
  | "min" => selectFrom py id (less py) args
  | "max" => selectFrom py id (fun a b => less py b a) args
  | "round" | "floor" | "ceil" =>
    match args with
    | [.int n] => .ok (.int n)
    | args => py.function id args
  | id => py.function id args

/-- The guard of `**`. -/
def guardExponent (py : Numerics F) (op : BinaryOperator) (right : Number F) : Except Exn Unit :=
  if op = .pow then do
    let tooLarge ← exceeds py right
    if tooLarge then .error (toolError "exponent too large") else .ok ()
  else .ok ()

/-- What every node outside the table raises. -/
def unsupported : Exn := toolError "unsupported expression"

mutual

/-- `_eval`. -/
def eval (py : Numerics F) : Node F → Except Exn (Number F)
  | .constant (.int n) => .ok (.int n)
  | .constant (.float x) => .ok (.inexact x)
  | .constant _ => .error (toolError "only numeric constants are allowed")
  | .binOp left op right =>
    if op ∈ binops then do
      let l ← eval py left
      let r ← eval py right
      guardExponent py op r
      applyBinary py op l r
    else .error unsupported
  | .unaryOp op operand =>
    if op ∈ unary then do
      let x ← eval py operand
      .ok (applyUnary py op x)
    else .error unsupported
  | .name id =>
    match (names py).lookup id with
    | some x => .ok (.inexact x)
    | none => .error unsupported
  | .call (.name id) args [] =>
    if id ∈ funcs then do
      let xs ← evalArgs py args
      callFunction py id xs
    else .error unsupported
  | .call _ _ _ => .error unsupported
  | .other _ _ => .error unsupported

/-- `[_eval(a) for a in args]`. -/
def evalArgs (py : Numerics F) : List (Node F) → Except Exn (List (Number F))
  | [] => .ok []
  | a :: rest => do
    let x ← eval py a
    let xs ← evalArgs py rest
    .ok (x :: xs)

end

/-! ## CalculatorTool.run -/

/-- How `ast.parse` fails. -/
inductive ParseError
  | syntaxError (message : String)
  | other (exc : Exn)

/-- `str(value)`; integers of more than 4300 digits are refused. -/
def str (py : Numerics F) : Number F → Except Exn String
  | .int n =>
    if 10 ^ 4300 ≤ n.natAbs then
      .error ⟨"ValueError", "Exceeds the limit (4300 digits) for integer string conversion; " ++
        "use sys.set_int_max_str_digits() to increase the limit"⟩
    else .ok (toString n)
  | .inexact x => .ok (py.str x)

/-- `CalculatorTool.run`; `parse` gives the body of the tree `ast.parse` returns. -/
def run (py : Numerics F) (parse : String → Except ParseError (Node F)) (expression : Json) :
    Except Exn String :=
  match expression with
  | .str text =>
    if strip text = "" then .error (toolError "expression must be a non-empty string")
    else
      match parse text with
      | .error (.syntaxError message) => .error (toolError ("invalid expression: " ++ message))
      | .error (.other exc) => .error exc
      | .ok tree => do
        let value ← eval py tree
        match value with
        | .inexact x =>
          match py.toInt? x with
          | some n => str py (.int n)
          | none => str py value
        | value => str py value
  | _ => .error (toolError "expression must be a non-empty string")

end Calculator

end AgenticExecution
