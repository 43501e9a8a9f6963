import TensorGraph.Operator.Reading
import TensorGraph.Simplification.Change

/-!
# Removing nodes without effect

Nodes whose output equals one of their inputs are removed: copies, dropout that drops nothing,
casts to the same type, changes of shape to the same shape, and sums, differences, products and
quotients with neutral elements.
-/

namespace TensorGraph

namespace Node

/-- Let what reads the first output of a node read another value. -/
def forwardTo (n : Node) (name : String) : Option Change := do
  return .forward [(← n.firstOutput?, name)]

end Node

namespace View

/-- Remove copies. -/
def eliminateIdentity (_v : View) (n : Node) : Option Change := do
  if n.isOperator "Identity" then n.forwardTo (← n.input? 0) else none

/-- Whether the training mode that is given as an input is off. -/
def isInferenceMode (v : View) (n : Node) : Bool :=
  match n.input? 2 with
  | none => true
  | some mode => ((v.constant? mode).bind fun t => t.item? Bool) = some false

/-- Remove dropout that drops nothing, if its mask is not used. -/
def eliminateNopDropout (v : View) (n : Node) : Option Change := do
  let operator ← (Operator.ofNode v.version n).toOption
  if n.isOperator "Dropout" && operator.isDeterministic &&
      !(n.outputs.drop 1).any (fun mask => mask ≠ "" && v.isUsed mask) && v.isInferenceMode n then
    n.forwardTo (← n.input? 0)
  else none

/-- The type that a node converts to. -/
def castTarget? (v : View) (n : Node) : Option ElementType :=
  if n.isOperator "Cast" then
    match n.attribute? "to" with
    | some (.int code) => ElementType.ofCode? code.toInt32
    | _ => none
  else if n.isOperator "CastLike" then do v.type? (← n.input? 1)
  else none

/-- Remove casts to the type that the input has. -/
def eliminateNopCast (v : View) (n : Node) : Option Change := do
  let input ← n.input? 0
  if (← v.type? input) = (← v.castTarget? n) then n.forwardTo input else none

/-- Remove a node of a type whose output has the shape of its input. -/
def eliminateSameShape (opType : String) (v : View) (n : Node) : Option Change := do
  let input ← n.input? 0
  if n.isOperator opType && (← v.knownShape? input) = (← v.knownShape? (← n.outputs.head?)) then
    n.forwardTo input
  else none

/-- Remove transpositions that keep the order of the dimensions. -/
def eliminateNopTranspose (v : View) (n : Node) : Option Change := do
  if n.isOperator "Transpose" then
    let perm ← v.permutation? n
    if perm = List.range perm.length then n.forwardTo (← n.input? 0) else none
  else none

/-- Sums, differences, products and quotients with neutral elements, as patterns. -/
def neutralPatterns : List Pattern :=
  [.binary "Add" (.any "x") (.number .zero), .binary "Sub" (.any "x") (.number .zero),
    .binary "Mul" (.any "x") (.number .one), .binary "Div" (.any "x") (.number .one)]

/-- Remove arithmetic with neutral elements that keeps type and shape. -/
def eliminateNopArithmetic (v : View) (n : Node) : Option Change := do
  if n.isDefaultDomain && ["Add", "Sub", "Mul", "Div"].contains n.opType then
    let output ← n.outputs.head?
    let found ← neutralPatterns.findSome? fun p => p.matches? v.computations output
    let x ← found.value? "x"
    let type ← v.type? x
    if (← v.knownShape? x) = (← v.knownShape? output) && v.type? output = some type then
      n.forwardTo x
    else none
  else none

end View
end TensorGraph
