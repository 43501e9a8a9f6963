import TensorGraph.Malformation
import TensorGraph.Graph.Reads

/-!
# Valid graphs

In a valid graph no value is defined twice, nested graphs included; every value that is read is
defined in the graph or visible from outside; every output is defined; and the nested graphs of
`If` and `Loop` have as many inputs and outputs as the node asks for.
-/

namespace TensorGraph

namespace Node

/-- Check the nested graphs of a control-flow node. -/
def checkControlFlow (n : Node) : Except Malformation Unit :=
  let malformed (fault : ControlFlowFault) : Except Malformation Unit :=
    .error (.controlFlow n.opType n.displayName fault)
  if !n.isDefaultDomain then .ok ()
  else if n.opType = "If" then
    match n.graph? "then_branch", n.graph? "else_branch" with
    | some a, some b =>
      if a.outputs.length ≠ n.outputs.length ∨ b.outputs.length ≠ n.outputs.length then
        malformed .branchOutputs
      else if !a.inputs.isEmpty || !b.inputs.isEmpty then malformed .branchInputs
      else .ok ()
    | _, _ => malformed .missingBranch
  else if n.opType = "Loop" then
    match n.graph? "body" with
    | some body =>
      let carried := n.inputs.length - 2
      if body.inputs.length ≠ carried + 2 then malformed .bodyInputs
      else if body.outputs.length < carried + 1 ∨ body.outputs.length - 1 ≠ n.outputs.length then
        malformed .bodyOutputs
      else .ok ()
    | none => malformed .missingBody
  else .ok ()

end Node

namespace Graph

/-- Add names to those that are defined.  None may be defined already. -/
def define (defined : List String) : List String → Except Malformation (List String)
  | [] => .ok defined
  | name :: rest =>
    if defined.contains name then .error (.definedTwice name) else define (name :: defined) rest

/-- The names that a graph defines, in the order in which they are checked.  An input that has an
initializer does not define its name again. -/
def definitions (g : Graph) : List String :=
  g.initializers.map Initializer.name ++ g.runtimeInputs.map ValueInfo.name ++
    g.nodes.flatMap Node.presentOutputs

/-- Check a graph in a scope of outer names, when the given names are defined elsewhere in the
model.  The names that are defined afterwards are returned. -/
def validateIn (g : Graph) (outer defined : List String) : Except Malformation (List String) := do
  let defined ← define defined g.definitions
  let visible := g.definitions ++ outer
  let defined ← g.nodes.attach.foldlM (fun defined ⟨n, _node⟩ => do
    match n.presentInputs.find? fun name => !visible.contains name with
    | some name => .error (.undefinedInput n.displayName name)
    | none => n.checkControlFlow
    n.subgraphs.attach.foldlM (fun defined ⟨p, _inside⟩ =>
      p.2.validateIn visible defined) defined) defined
  match g.outputs.find? fun o => !visible.contains o.name with
  | some o => .error (.undefinedOutput o.name)
  | none => return defined
termination_by sizeOf g
decreasing_by exact sizeOf_nested _node _inside

/-- Check a graph in a scope of outer names. -/
def validate (g : Graph) (outer : List String) : Except Malformation Unit := do
  let _ ← g.validateIn outer []

end Graph
end TensorGraph
