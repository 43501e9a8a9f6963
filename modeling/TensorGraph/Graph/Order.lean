import TensorGraph.Malformation
import TensorGraph.Graph.Reads

/-!
# Topological order

The nodes of a graph are ordered so that each comes after the nodes whose values it reads.  Among
the nodes that can come next the first in the list is taken, so a list that is in order stays as it
is.  The order fails with the name of a node if nodes wait for each other.
-/

namespace TensorGraph

/-- A node that waits for itself, directly or through others. -/
structure Cycle where
  node : String
  deriving DecidableEq, Repr

/-- The words that describe a cycle. -/
def Cycle.message (c : Cycle) : String :=
  "graph contains a cycle through node " ++ quoted c.node

namespace Graph

/-- For each node, the nodes that produce what it reads. -/
def dependencies (g : Graph) : List (List Nat) :=
  g.nodes.map fun n => n.reads.filterMap g.lastProducer?

/-- The first node that is not yet ordered and waits for ordered nodes only. -/
def nextReady? (deps : List (List Nat)) (done : List Nat) : Option Nat :=
  (List.range deps.length).find? fun i =>
    !done.contains i && (deps.getD i []).all done.contains

/-- Extend an order by at most `count` nodes. -/
def orderFrom (deps : List (List Nat)) : Nat → List Nat → List Nat
  | 0, done => done
  | count + 1, done =>
    match nextReady? deps done with
    | some i => orderFrom deps count (done ++ [i])
    | none => done

/-- The name of a node at a position. -/
def nodeName (g : Graph) (i : Nat) : String := (g.nodes[i]?.map Node.displayName).getD ""

/-- The indexes of the nodes in topological order. -/
def topologicalOrder (g : Graph) : Except Cycle (List Nat) :=
  let deps := g.dependencies
  let indexes := List.range deps.length
  match indexes.find? fun i => (deps.getD i []).contains i with
  | some i => .error ⟨g.nodeName i⟩
  | none =>
    let order := orderFrom deps deps.length []
    match indexes.find? fun i => !order.contains i with
    | some i => .error ⟨g.nodeName i⟩
    | none => .ok order

/-- Put the nodes into topological order. -/
def sortTopologically (g : Graph) : Except Cycle Graph := do
  let order ← g.topologicalOrder
  return { g with nodes := order.filterMap fun i => g.nodes[i]? }

end Graph
end TensorGraph
