import TensorGraph.Graph.Basic

/-!
# Outlines of graphs

An outline lists the parts of a graph that simplification changes.  A pass that keeps the outline
has changed nothing that matters, so no further pass is needed.
-/

namespace TensorGraph

/-- A part of an outline. -/
inductive Mark where
  | count (n : Nat)
  | int (v : Int64)
  | float (x : Binary32)
  | text (s : String)
  | texts (ss : List String)
  | optionalText (s : Option String)
  | bytes (b : Wire.Bytes)
  | type (t : ElementType)
  | shape (sizes : List Nat)
  | kind (index : Nat)
  deriving DecidableEq, Repr

/-- Type and shape of a tensor. -/
def Tensor.marks (t : Tensor) : List Mark := [.type t.elementType, .shape t.shape]

mutual
/-- The parts of an attribute's value, in order.  Of tensors only type and shape count. -/
def AttributeValue.marks : AttributeValue → List Mark
  | .float x => [.kind 0, .float x]
  | .int v => [.kind 1, .int v]
  | .string s => [.kind 2, .bytes s]
  | .tensor t => .kind 3 :: t.marks
  | .graph g => .kind 4 :: g.outline
  | .floats xs => .kind 5 :: xs.map Mark.float
  | .ints vs => .kind 6 :: .count vs.length :: vs.map Mark.int
  | .strings ss => .kind 7 :: .count ss.length :: ss.map Mark.bytes
  | .tensors ts => .kind 8 :: ts.flatMap Tensor.marks
  | .graphs gs => .kind 9 :: gs.flatMap fun g => g.outline
  | .undefined => [.kind 10]
termination_by v => sizeOf v
decreasing_by
  · simp
  · rename_i h
    have := List.sizeOf_lt_of_mem h
    simp
    omega

/-- The parts of a node, in order. -/
def Node.marks (n : Node) : List Mark :=
  [.text n.opType, .optionalText n.domain, .texts n.inputs, .texts n.outputs] ++
    n.attributes.attach.flatMap fun ⟨a, _inside⟩ => .text a.name :: a.value.marks
termination_by sizeOf n
decreasing_by exact Node.sizeOf_attributes _inside

/-- The parts of a graph, in order. -/
def Graph.outline (g : Graph) : List Mark :=
  .count g.nodes.length ::
    (g.nodes.attach.flatMap fun ⟨n, _inside⟩ => n.marks) ++
    g.initializers.flatMap (fun i => .text i.name :: i.value.marks) ++
    (g.inputs ++ g.outputs).map fun v => .text v.name
termination_by sizeOf g
decreasing_by exact Graph.sizeOf_nodes _inside
end

end TensorGraph
