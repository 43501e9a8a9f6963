import TensorGraph.Simplification.Pattern
import TensorGraph.Simplification.Surroundings
import TensorGraph.Graph.Reads

/-!
# What rules see

Rules look at a graph, at the facts about its values, and at its surroundings.
-/

namespace TensorGraph

/-- A graph with what is known about it. -/
structure View where
  version : Option Int64
  graph : Graph
  /-- The facts about the values of the graph. -/
  facts : Scope Facts
  surroundings : Surroundings

namespace Node

/-- Whether a node applies an operator of the default operator set. -/
def isOperator (n : Node) (opType : String) : Bool := n.opType == opType && n.isDefaultDomain

/-- The first output, unless it is omitted. -/
def firstOutput? (n : Node) : Option String := n.outputs.head?.filter (· ≠ "")

end Node

namespace View

/-- The facts about a value. -/
def factsOf? (v : View) (name : String) : Option Facts :=
  (v.facts.inside v.surroundings.facts).get? name

def type? (v : View) (name : String) : Option ElementType := (v.factsOf? name).bind Facts.type

def rank? (v : View) (name : String) : Option Nat := (v.factsOf? name).bind Facts.rank?

/-- The shape of a value, if something is known about each dimension. -/
def knownShape? (v : View) (name : String) : Option (List Dim) :=
  ((v.factsOf? name).bind Facts.shape).filter fun dims => dims.all (· ≠ .unknown)

/-- Whether a value is read by a node or is an output. -/
def isUsed (v : View) (name : String) : Bool := v.graph.uses.contains name

/-- Whether a value is read once, by a node. -/
def isUsedOnce (v : View) (name : String) : Bool :=
  v.graph.uses.count name = 1 && !v.graph.isOutput name

/-- The node that produces a value, with its index. -/
def producer? (v : View) (name : String) : Option (Nat × Node) := do
  let i ← v.graph.lastProducer? name
  return (i, ← v.graph.nodes[i]?)

/-- The constant with a name, if its elements are available. -/
def constant? (v : View) (name : String) : Option Tensor :=
  ((v.graph.initializer? name).or (v.surroundings.constants.get? name)).filter Tensor.isEvaluable

/-- What patterns are matched against. -/
def computations (v : View) : Computations :=
  { producer? := v.producer?, constant? := v.constant? }

/-- Integers that are given by an attribute, or by a constant as the input at a position. -/
def integers? (v : View) (n : Node) (key : String) (input : Nat) : Option (List Int) :=
  match n.attribute? key with
  | some (.ints values) => some (values.map Int64.toInt)
  | some _ => none
  | none => do
    return (← (← v.constant? (← n.input? input)).int64s?).toList.map Int64.toInt

/-- The permutation of a `Transpose` node.  The order of the dimensions is reversed if none is
given. -/
def permutation? (v : View) (n : Node) : Option (List Nat) :=
  match n.attribute? "perm" with
  | some (.ints perm) =>
    perm.mapM fun p => if 0 ≤ p then some p.toInt.toNat else none
  | some _ => none
  | none => do return (List.range (← v.rank? (← n.input? 0))).reverse

end View
end TensorGraph
