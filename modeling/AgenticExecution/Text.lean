set_option autoImplicit false

/-! # Python's text functions

`str.strip`, `str.split`, `str.lower` and `str.join` as the planner and the aggregator use them.
White space is Python's, which is wider than ASCII. -/

namespace AgenticExecution

/-- The characters `str.strip()` and `str.split()` drop. -/
def isSpace (c : Char) : Bool :=
  let n := c.toNat
  (9 ≤ n && n ≤ 13) || (28 ≤ n && n ≤ 32) || n == 0x85 || n == 0xA0 || n == 0x1680 ||
    (0x2000 ≤ n && n ≤ 0x200A) || n == 0x2028 || n == 0x2029 || n == 0x202F || n == 0x205F ||
    n == 0x3000

/-- `str.rstrip()` on characters. -/
def rstripChars (cs : List Char) : List Char := (cs.reverse.dropWhile isSpace).reverse

/-- `str.strip()` on characters. -/
def stripChars (cs : List Char) : List Char := rstripChars (cs.dropWhile isSpace)

/-- `str.strip()`. -/
def strip (s : String) : String := String.ofList (stripChars s.toList)

/-- `str.split()`: the maximal runs of characters that are not white space. -/
def splitWords (cs : List Char) : List (List Char) :=
  (cs.splitOnP isSpace).filter fun w => !w.isEmpty

/-- `str.lower()` on ASCII letters, all that a comparison with an ASCII name can see. -/
def lower (s : String) : String := String.ofList (s.toList.map Char.toLower)

/-- `sep.join(parts)`. -/
def join (sep : String) (parts : List String) : String := String.intercalate sep parts

end AgenticExecution
