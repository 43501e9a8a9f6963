/-!
# Reading counts

A count is written in decimal digits, possibly with a plus sign in front, and fits into 64 bits.
-/

namespace TensorGraph

/-- Whether a character is white space in Unicode. -/
def isBlank (c : Char) : Bool :=
  let v := c.toNat
  (0x09 ≤ v && v ≤ 0x0d) || v == 0x20 || v == 0x85 || v == 0xa0 || v == 0x1680 ||
    (0x2000 ≤ v && v ≤ 0x200a) || v == 0x2028 || v == 0x2029 || v == 0x202f || v == 0x205f ||
    v == 0x3000

/-- The characters without the blanks at both ends. -/
def trimBlanks (cs : List Char) : List Char :=
  ((cs.dropWhile isBlank).reverse.dropWhile isBlank).reverse

/-- Why a text is not a count. -/
inductive CountFault where
  | empty
  | notDigit
  | tooLarge
  deriving DecidableEq, Repr

/-- The words that describe why a text is not a count. -/
def CountFault.message : CountFault → String
  | empty => "cannot parse integer from empty string"
  | notDigit => "invalid digit found in string"
  | tooLarge => "number too large to fit in target type"

/-- Add a digit to a number.  What is wrong with the first character that cannot be added counts. -/
def addDigit (n : Nat) (c : Char) : Except CountFault Nat :=
  if !c.isDigit then .error .notDigit
  else
    let next := n * 10 + (c.toNat - '0'.toNat)
    if next < UInt64.size then .ok next else .error .tooLarge

/-- Read digits. -/
def readDigits (cs : List Char) : Except CountFault Nat := cs.foldlM addDigit 0

/-- Read a count. -/
def readCount : List Char → Except CountFault Nat
  | [] => .error .empty
  | ['+'] => .error .notDigit
  | '+' :: rest => readDigits rest
  | cs => readDigits cs

/-- Read a count with blanks around it. -/
def readTrimmedCount? (cs : List Char) : Option Nat := (readCount (trimBlanks cs)).toOption

end TensorGraph
