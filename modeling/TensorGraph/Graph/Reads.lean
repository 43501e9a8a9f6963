import TensorGraph.Graph.Basic

/-!
# What nodes and graphs read

A node reads its inputs and all values that its nested graphs take from outside.  A graph takes from
outside what it reads and does not define.
-/

namespace TensorGraph

mutual
/-- The values that a graph reads but does not define, each once, in the order of reading. -/
def Graph.captures (g : Graph) : List String :=
  let read := (g.nodes.flatMap fun n => n.reads) ++ g.outputs.map ValueInfo.name
  (read.filter fun name => !g.definedNames.contains name).eraseDups
termination_by sizeOf g
decreasing_by exact Graph.sizeOf_nodes ‹_›

/-- The values that a node reads: its inputs, and then the other values that its nested graphs take
from outside. -/
def Node.reads (n : Node) : List String :=
  let captured := n.subgraphs.attach.flatMap fun ⟨p, _inside⟩ => p.2.captures
  n.presentInputs ++ (captured.filter fun name => !n.presentInputs.contains name).eraseDups
termination_by sizeOf n
decreasing_by exact Node.sizeOf_subgraphs _inside
end

namespace Graph

/-- The nodes that read a value. -/
def successors (g : Graph) (name : String) : List Nat :=
  (g.nodes.zipIdx.filter fun (n, _) => n.reads.contains name).map Prod.snd

/-- The nodes that produce what a node reads, each once, in the order of reading. -/
def predecessors (g : Graph) (i : Nat) : List Nat :=
  match g.nodes[i]? with
  | some n => (n.reads.filterMap g.lastProducer?).eraseDups
  | none => []

/-- All readings of values: by nodes, and by the graph's outputs. -/
def uses (g : Graph) : List String := g.nodes.flatMap Node.reads ++ g.outputs.map ValueInfo.name

end Graph
end TensorGraph
