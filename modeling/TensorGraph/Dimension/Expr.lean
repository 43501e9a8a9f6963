/-!
# Expressions for sizes

The size of a dimension may depend on names, such as the size of a batch.  An expression is an
integer, a name, or one of seven operations on two expressions.  `SizeExpr.eval` gives its value
for any values of the names, and `SizeExpr.text` its written form.
-/

namespace TensorGraph

/-- The operations of size expressions.  `div` rounds down and `divCeil` rounds up. -/
inductive SizeOp where
  | add
  | sub
  | mul
  | div
  | divCeil
  | max
  | min
  deriving DecidableEq, Repr

/-- An expression for a size. -/
inductive SizeExpr where
  | const (v : Int)
  | var (name : String)
  | bin (op : SizeOp) (a b : SizeExpr)
  deriving DecidableEq, Repr, Inhabited

namespace SizeOp

/-- Whether chains of the operation may be regrouped and reordered. -/
def isAssociative : SizeOp → Bool
  | add | mul | max | min => true
  | _ => false

/-- The value of an operation.  Divisions round down and up for positive divisors. -/
def apply : SizeOp → Int → Int → Int
  | add, a, b => a + b
  | sub, a, b => a - b
  | mul, a, b => a * b
  | div, a, b => a / b
  | divCeil, a, b => (a + b - 1) / b
  | max, a, b => Max.max a b
  | min, a, b => Min.min a b

/-- How tightly an operation binds in the written form. -/
def precedence : SizeOp → Nat
  | add | sub => 1
  | mul | div => 2
  | divCeil | max | min => 3

end SizeOp

namespace SizeExpr

/-- The value of an expression when each name has the given value. -/
def eval (σ : String → Int) : SizeExpr → Int
  | const v => v
  | var name => σ name
  | bin op a b => op.apply (eval σ a) (eval σ b)

/-- The integer, if the expression is one. -/
def constant? : SizeExpr → Option Int
  | const v => some v
  | _ => none

def precedence : SizeExpr → Nat
  | bin op _ _ => op.precedence
  | _ => 3

/-- A text in brackets, if they are needed. -/
def bracketed (needed : Bool) (s : String) : String :=
  if needed then "(" ++ s ++ ")" else s

/-- The written form of an expression.  An operand stands in brackets if it binds less tightly than
the operation, or as tightly and is subtracted or a divisor. -/
def text : SizeExpr → String
  | const v => toString v
  | var name => name
  | bin .divCeil a b => "ceil(" ++ text a ++ "/" ++ text b ++ ")"
  | bin .max a b => "max(" ++ text a ++ ", " ++ text b ++ ")"
  | bin .min a b => "min(" ++ text a ++ ", " ++ text b ++ ")"
  | bin .add a b =>
    bracketed (a.precedence < 1) (text a) ++ " + " ++ bracketed (b.precedence < 1) (text b)
  | bin .sub a b =>
    bracketed (a.precedence < 1) (text a) ++ " - " ++ bracketed (b.precedence ≤ 1) (text b)
  | bin .mul a b =>
    bracketed (a.precedence < 2) (text a) ++ "*" ++ bracketed (b.precedence < 2) (text b)
  | bin .div a b =>
    bracketed (a.precedence < 2) (text a) ++ "/" ++ bracketed (b.precedence ≤ 2) (text b)

end SizeExpr
end TensorGraph
