import TensorGraph.Dimension.Expr

/-!
# Simplification of sizes

Constant parts are computed, neutral operands are dropped, and the operands of a chain of one
associative operation are sorted by their text, with the constants combined in front.  So
expressions that were built in different orders become equal.  Constants are held to the range of
64 bits.
-/

namespace TensorGraph

/-- The nearest integer with 64 bits. -/
def clamp64 (v : Int) : Int := max Int64.minValue.toInt (min Int64.maxValue.toInt v)

/-- The integer with 64 bits that is equal modulo the number of such integers. -/
def wrap64 (v : Int) : Int := v.bmod Int64.size

namespace SizeOp

/-- Combine two constants of a chain. -/
def fold (op : SizeOp) (a b : Int) : Int :=
  match op with
  | add | mul => clamp64 (op.apply a b)
  | _ => op.apply a b

/-- The operand that changes nothing, if there is one. -/
def identity? : SizeOp → Option Int
  | add => some 0
  | mul => some 1
  | _ => none

end SizeOp

namespace SizeExpr

/-- The operands of a chain of one operation. -/
def chain (op : SizeOp) : SizeExpr → List SizeExpr
  | const v => [const v]
  | var name => [var name]
  | bin op' a b => if op' = op then chain op a ++ chain op b else [bin op' a b]

/-- The combination of all constants among some operands. -/
def constantPart (op : SizeOp) (operands : List SizeExpr) : Option Int :=
  operands.foldl (fun acc e =>
    match acc, e with
    | none, const v => some v
    | some c, const v => some (op.fold c v)
    | acc, _ => acc) none

/-- Drop each operand that equals the one before it. -/
def dropRepeats : List SizeExpr → List SizeExpr
  | [] => []
  | [a] => [a]
  | a :: b :: rest => if a = b then dropRepeats (b :: rest) else a :: dropRepeats (b :: rest)

/-- The operands that are not constants, in the order of their texts. -/
def symbolicPart (op : SizeOp) (operands : List SizeExpr) : List SizeExpr :=
  let symbolic := operands.filter fun e => e.constant?.isNone
  let sorted := symbolic.mergeSort fun a b => decide (a.text ≤ b.text)
  if op = .max ∨ op = .min then dropRepeats sorted else sorted

/-- Chain operands from the left. -/
def join (op : SizeOp) : List SizeExpr → SizeExpr
  | [] => const (op.identity?.getD 0)
  | first :: rest => rest.foldl (bin op) first

/-- Chain simplified operands of an associative operation in their canonical order. -/
def rebuild (op : SizeOp) (operands : List SizeExpr) : SizeExpr :=
  let flat := operands.flatMap (chain op)
  let constant := constantPart op flat
  if op = .mul ∧ constant = some 0 then const 0
  else
    let symbolic := symbolicPart op flat
    match constant with
    | some c =>
      if some c = op.identity? ∧ symbolic ≠ [] then join op symbolic
      else join op (const c :: symbolic)
    | none => join op symbolic

/-- Apply an operation that is not associative to simplified operands. -/
def combine (op : SizeOp) (a b : SizeExpr) : SizeExpr :=
  match op, a, b with
  | .sub, const x, const y => const (wrap64 (x - y))
  | .sub, a, const 0 => a
  | .sub, a, b => if a = b then const 0 else bin .sub a b
  | .div, a, b =>
    match a, b with
    | const x, const y =>
      if y ≠ 0 then const (x / y)
      else if x = y then const 1
      else bin .div a b
    | a, const 1 => a
    | a, b => if a = b then const 1 else bin .div a b
  | op, a, b =>
    match a, b with
    | const x, const y => if 0 < y then const (wrap64 (x + y - 1) / y) else bin op a b
    | a, const 1 => a
    | a, b => bin op a b

mutual
/-- Simplify an expression. -/
def simplify (e : SizeExpr) : SizeExpr :=
  match e with
  | const v => const v
  | var name => var name
  | bin op a b =>
    if op.isAssociative then rebuild op (simplifyChain op a ++ simplifyChain op b)
    else combine op a.simplify b.simplify
termination_by (sizeOf e, 0)

/-- Simplify each operand of a chain. -/
def simplifyChain (op : SizeOp) (e : SizeExpr) : List SizeExpr :=
  match e with
  | const v => [const v]
  | var name => [var name]
  | bin op' a b =>
    if op' = op then simplifyChain op a ++ simplifyChain op b else [(bin op' a b).simplify]
termination_by (sizeOf e, 1)
end

/-- The simplified sum. -/
def plus (a b : SizeExpr) : SizeExpr := (bin .add a b).simplify

/-- The simplified difference. -/
def minus (a b : SizeExpr) : SizeExpr := (bin .sub a b).simplify

/-- The simplified product. -/
def times (a b : SizeExpr) : SizeExpr := (bin .mul a b).simplify

/-- The simplified quotient, rounded down. -/
def quotient (a b : SizeExpr) : SizeExpr := (bin .div a b).simplify

/-- The simplified quotient, rounded up. -/
def quotientUp (a b : SizeExpr) : SizeExpr := (bin .divCeil a b).simplify

/-- The simplified maximum. -/
def larger (a b : SizeExpr) : SizeExpr := (bin .max a b).simplify

/-- The simplified minimum. -/
def smaller (a b : SizeExpr) : SizeExpr := (bin .min a b).simplify

end SizeExpr
end TensorGraph
