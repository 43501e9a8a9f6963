import TensorGraph.Graph.Reads
import TensorGraph.Operator.Reading

/-!
# Removing what is not used

A node is live if one of its outputs is an output of the graph or is read by a live node.  All
other nodes are removed, and then the initializers that nothing reads.  Optional outputs of live
nodes that nothing reads are left out.
-/

namespace TensorGraph

/-- Whether one of the outputs of a node is among some names. -/
def Node.produces (n : Node) (names : List String) : Bool := n.presentOutputs.any names.contains

/-- Drop omitted outputs at the end, but keep a number of outputs. -/
def trimOmitted (required : Nat) (outputs : List String) : List String :=
  outputs.take required ++ ((outputs.drop required).reverse.dropWhile (· = "")).reverse

/-- Leave out the optional outputs that are not among the live names. -/
def Node.dropDeadOutputs (version : Option Int64) (live : List String) (n : Node) : Node :=
  match (Operator.ofNode version n).toOption.bind Operator.requiredOutputs? with
  | none => n
  | some required =>
    let optional := (n.outputs.drop required).map fun o => if live.contains o then o else ""
    { n with outputs := trimOmitted required (n.outputs.take required ++ optional) }

/-- The declaration of an initializer. -/
def Initializer.valueInfo (i : Initializer) : ValueInfo :=
  { name := i.name
    type := some i.value.elementType
    shape := some (i.value.shape.map Dim.fixed) }

namespace Graph

/-- The nodes that are live when some names are live after them, and all names that are live. -/
def liveNodes (names : List String) : List Node → List Node × List String
  | [] => ([], names)
  | n :: rest =>
    let (kept, live) := liveNodes names rest
    if n.produces live then (n :: kept, n.reads ++ live) else (kept, live)

/-- Remove the nodes that do not contribute to the outputs.  The graph must be in topological
order. -/
def eliminateDeadCode (version : Option Int64) (g : Graph) : Graph :=
  let (kept, live) := liveNodes (g.outputs.map ValueInfo.name) g.nodes
  { g with nodes := kept.map (Node.dropDeadOutputs version live) }

/-- Which of some nodes are live when some names are live after them, and all names that are live. -/
def liveFlags (names : List String) : List Node → List Bool × List String
  | [] => ([], names)
  | n :: rest =>
    let (keep, live) := liveFlags names rest
    if n.produces live then (true :: keep, n.reads ++ live) else (false :: keep, live)

/-- Remove the nodes that do not contribute to the outputs, and count them. -/
def removeDeadCode (version : Option Int64) (g : Graph) : Graph × Nat :=
  let (keep, live) := liveFlags (g.outputs.map ValueInfo.name) g.nodes
  let kept := ((g.nodes.zip keep).filter Prod.snd).map Prod.fst
  ({ g with nodes := kept.map (Node.dropDeadOutputs version live) }, keep.count false)

/-- Remove the initializers that nothing reads.  Those that are inputs are kept. -/
def removeUnusedInitializers (g : Graph) : Graph :=
  let uses := g.uses
  { g with
    initializers := g.initializers.filter fun i => uses.contains i.name || g.isInput i.name }

/-- Remove outputs.  It fails with the first name that is not an output. -/
def removeOutputs (g : Graph) (names : List String) : Except String Graph :=
  match names.find? fun name => !g.isOutput name with
  | some name => .error name
  | none => .ok { g with outputs := g.outputs.filter fun o => !names.contains o.name }

/-- Make the inputs agree with the initializers, of which only those are kept that something reads.
In formats with separate initializers no input has an initializer; in all others each initializer is
an input. -/
def syncInputs (g : Graph) (separate : Bool) : Graph :=
  let uses := g.uses
  let used := g.initializers.filter fun i => uses.contains i.name
  if separate then
    { g with
      inputs := g.inputs.filter fun v => !(g.initializers.map Initializer.name).contains v.name
      initializers := used }
  else
    let unused := g.initializers.filter fun i => !uses.contains i.name
    let inputs := g.inputs.filter fun v => !(unused.map Initializer.name).contains v.name
    let missing := used.filter fun i => !inputs.any fun v => v.name == i.name
    { g with inputs := inputs ++ missing.map Initializer.valueInfo, initializers := used }

end Graph
end TensorGraph
