import TensorGraph.Facts.Basic

/-!
# Facts about elementwise operators

The output of an elementwise operator has the shape that its inputs broadcast to.  Elements that are
known are combined as the kernel combines them.
-/

namespace TensorGraph

/-- The dimension that two dimensions broadcast to.  Two different fixed sizes do not unless one
is 1. -/
def broadcastDim (a b : Dim) : FactsResult Dim :=
  if a = b then .ok a
  else
    match a, b with
    | .fixed 1, b => .ok b
    | a, .fixed 1 => .ok a
    | .fixed _, .fixed _ => .error .incompatibleShapes
    | .fixed n, _ => .ok (.fixed n)
    | _, .fixed n => .ok (.fixed n)
    | .symbolic x, .symbolic y => .ok (.ofExpr (x.larger y))
    | _, _ => .ok .unknown

/-- Broadcast dimensions that are aligned. -/
def broadcastAligned : List Dim → List Dim → FactsResult (List Dim)
  | a :: as, b :: bs => do return (← broadcastDim a b) :: (← broadcastAligned as bs)
  | _, _ => .ok []

/-- Add dimensions of size 1 in front, up to a rank. -/
def padDims (rank : Nat) (dims : List Dim) : List Dim :=
  List.replicate (rank - dims.length) (.fixed 1) ++ dims

/-- The dimensions that two shapes broadcast to. -/
def broadcastDims (a b : List Dim) : FactsResult (List Dim) :=
  let rank := max a.length b.length
  broadcastAligned (padDims rank a) (padDims rank b)

/-- The element of a list that is broadcast. -/
def broadcastValue? (values : List SizeExpr) (i : Nat) : Option SizeExpr :=
  if values.length = 1 then values.head? else values[i]?

/-- How the known elements of two inputs are combined. -/
abbrev ValueRule := SizeExpr → SizeExpr → Option SizeExpr

/-- Combine two lists of elements of equal length, or of which one has a single element. -/
def combineValues (rule : ValueRule) (as bs : List SizeExpr) : Option (List SizeExpr) :=
  let len := max as.length bs.length
  if (as.length = len ∨ as.length = 1) ∧ (bs.length = len ∨ bs.length = 1) then
    (List.range len).mapM fun i => do rule (← broadcastValue? as i) (← broadcastValue? bs i)
  else none

/-- Facts about the output of a unary operator, which has the type and shape of its first input. -/
def unaryFacts (inputs : InputFacts) : FactsResult (List Facts) := do
  return [(← inputs.require 0).withoutValues]

/-- Facts about the elementwise combination of two values. -/
def binaryFacts (type : Option ElementType) (rule : Option ValueRule) (a b : Facts) :
    FactsResult Facts := do
  let shape ← match a.shape, b.shape with
    | some s, some t => (broadcastDims s t).map some
    | _, _ => .ok none
  let values :=
    match rule, a.values, b.values, shape with
    | some rule, some as, some bs, some dims =>
      if dims.length ≤ 1 then combineValues rule as bs else none
    | _, _, _, _ => none
  return { type := (type.or a.type).or b.type, shape := shape, values := values }

end TensorGraph
