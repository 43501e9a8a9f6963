import TensorGraph.Graph.Order
import TensorGraph.Operator.Reading
import TensorGraph.Scope

/-!
# Facts about the values of a graph

Facts about inputs and initializers are carried through the nodes in topological order.  What a
rule leaves open is filled in from the declarations of the graph.  Nested graphs see the facts of
the graphs around them.
-/

namespace TensorGraph

/-- The name of a dimension of an input that has none. -/
def inputDimName (input : String) (i : Nat) : String := input ++ "_dim" ++ toString i

/-- The facts about an input.  Unknown dimensions get a name, so that what depends on them can be
compared. -/
def ValueInfo.inputFacts (v : ValueInfo) : Facts :=
  { Facts.ofValueInfo v with
    shape := v.shape.map fun dims => dims.zipIdx.map fun (d, i) =>
      if d = .unknown then Dim.named (inputDimName v.name i) else d }

/-- The facts about an output of a loop that is stacked over the iterations. -/
def Facts.stacked (f : Facts) : Facts :=
  { type := f.type, shape := f.shape.map fun dims => .unknown :: dims }

/-- The facts about the outputs of a loop.  The body's outputs are a condition, the values that are
carried to the next iteration, and values that are stacked.  Of carried values only what holds
before and after an iteration is known. -/
def loopFacts (inputs : InputFacts) (bodyOutputs : List Facts) : List Facts :=
  let carried := inputs.length - 2
  (bodyOutputs.zipIdx.drop 1).map fun (out, i) =>
    if i ≤ carried then ((inputs.get? (i + 1)).getD {}).merge out.withoutValues else out.stacked

/-- Which branch is taken, if it is known. -/
def knownCondition (f : Facts) : Option Bool :=
  match f.integers? with
  | some [c] => some (c ≠ 0)
  | _ => none

namespace Graph

/-- The facts about inputs and initializers. -/
def givenFacts (g : Graph) : Scope Facts :=
  Scope.ofBindings
    (g.inputs.map (fun v => (v.name, v.inputFacts)) ++
      g.initializers.map fun i => (i.name, Facts.ofTensor i.value))

/-- The declarations of a value, in the order in which they count. -/
def declarations (g : Graph) (name : String) : List ValueInfo :=
  (g.valueInfo ++ g.outputs).filter fun v => v.name = name

/-- The nodes in topological order, or as they are if there is no such order. -/
def evaluationOrder (g : Graph) : List { n : Node // n ∈ g.nodes } :=
  match g.topologicalOrder with
  | .ok order => order.filterMap fun i =>
    if h : i < g.nodes.length then some ⟨g.nodes[i], List.getElem_mem h⟩ else none
  | .error _ => g.nodes.attach

/-- The facts about the inputs of a node. -/
def nodeInputFacts (scope : Scope Facts) (n : Node) : InputFacts :=
  n.inputs.map fun name => if name = "" then none else some ((scope.get? name).getD {})

/-- Add the facts about the outputs of a node to a scope. -/
def bindOutputFacts (g : Graph) (n : Node) (outputs : List Facts) (facts : Scope Facts) :
    Scope Facts :=
  n.outputs.zipIdx.foldl (fun facts (name, i) =>
    if name = "" then facts
    else facts.bind name ((g.declarations name).foldl Facts.refine ((outputs[i]?).getD {}))) facts

/-- The facts about all inputs, initializers and outputs of nodes of a graph, inside of a scope. -/
def infer (version : Option Int64) (g : Graph) (outer : Scope Facts) : Scope Facts :=
  g.evaluationOrder.foldl (fun facts ⟨n, _inside⟩ =>
    let scope := facts.inside outer
    let inputs := nodeInputFacts scope n
    let nested (sub : Graph) (known : Scope Facts) : List Facts :=
      sub.outputs.map fun o => (((known.inside scope).get? o.name).getD {}).refine o
    let outputs : FactsResult (List Facts) :=
      if n.isDefaultDomain ∧ n.opType = "If" then
        match _ht : n.graph? "then_branch", _he : n.graph? "else_branch" with
        | some onTrue, some onFalse => do
          match knownCondition (← inputs.require 0) with
          | some true => return nested onTrue (onTrue.infer version scope)
          | some false => return nested onFalse (onFalse.infer version scope)
          | none =>
            let ts := nested onTrue (onTrue.infer version scope)
            let es := nested onFalse (onFalse.infer version scope)
            return (ts.zip es).map fun (t, e) => t.merge e
        | _, _ => .error .invalidValue
      else if n.isDefaultDomain ∧ n.opType = "Loop" then
        match _hb : n.graph? "body" with
        | some body => .ok (loopFacts inputs (nested body (body.infer version scope)))
        | none => .error .invalidValue
      else
        match Operator.ofNode version n with
        | .ok (.kernel k) => k.infer inputs
        | _ => .ok []
    g.bindOutputFacts n (outputs.toOption.getD []) facts) g.givenFacts
termination_by sizeOf g
decreasing_by
  all_goals exact Nat.lt_trans (Node.sizeOf_graph? ‹_›) (sizeOf_nodes _inside)

end Graph
end TensorGraph
