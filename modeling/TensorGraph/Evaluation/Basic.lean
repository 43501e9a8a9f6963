import TensorGraph.Evaluation.Iteration

/-!
# Running graphs

A graph is run node by node in topological order.  Nested graphs see the values of the graphs around
them.
-/

namespace TensorGraph

namespace Node

/-- The tensors that a node reads.  An omitted input has none. -/
def arguments (n : Node) (scope : Scope Tensor) : RunResult Inputs :=
  n.inputs.mapM fun name =>
    if name = "" then .ok none
    else
      match scope.get? name with
      | some t => .ok (some t)
      | none => .error (.unknownValue name)

/-- Add the outputs of a node to a scope.  Only omitted outputs need no tensor. -/
def bindOutputs (n : Node) (outputs : List Tensor) (scope : Scope Tensor) :
    RunResult (Scope Tensor) :=
  if (n.outputs.drop outputs.length).all (· = "") then
    .ok ((n.outputs.zip outputs).foldl (fun scope (name, t) =>
      if name = "" then scope else scope.bind name t) scope)
  else
    .error (.outputCount n.displayName n.opType n.outputs.length outputs.length)

end Node

namespace Graph

/-- The constants and inputs of a graph.  An input without a tensor must be a constant. -/
def givenValues (g : Graph) (inputs : Scope Tensor) : RunResult (Scope Tensor) :=
  let constants := Scope.ofBindings (g.initializers.map fun i => (i.name, i.value))
  g.inputs.foldlM (fun scope v =>
    match inputs.get? v.name with
    | some t => .ok (scope.bind v.name t)
    | none => if scope.contains v.name then .ok scope else .error (.missingInput v.name)) constants

/-- The values of the graph's outputs. -/
def outputValues (g : Graph) (scope : Scope Tensor) : RunResult (List Tensor) :=
  g.outputs.mapM fun o =>
    match scope.get? o.name with
    | some t => .ok t
    | none => .error (.unknownValue o.name)

/-- Run a graph inside of a scope.  What a random operator without a seed draws depends on the
chance of the run and on its node. -/
def runIn (version : Option Int64) (chance : Generator) (g : Graph) (inputs outer : Scope Tensor) :
    RunResult (List Tensor) := do
  let steps ← g.plan version
  let given ← g.givenValues inputs
  let final ← steps.foldlM (fun scope s => do
    let n := s.node
    let arguments ← n.arguments scope
    let outputs ← match _h : s.operator with
      | .kernel k =>
        (k.run (chance.forName n.displayName) arguments (some n.outputs.length)).mapError
          (.operator n.displayName n.opType)
      | .branch onTrue onFalse =>
        (runBranch n (fun _ => onTrue.runIn version chance [] scope)
          (fun _ => onFalse.runIn version chance [] scope) arguments).mapError
          (.inSubgraph n.displayName)
      | .loop body =>
        (runLoop version n body (fun given => body.runIn version chance given scope)
          arguments).mapError (.inSubgraph n.displayName)
    n.bindOutputs outputs scope) (given.inside outer)
  g.outputValues final
termination_by sizeOf g
decreasing_by
  · exact (Step.sizeOf_branch _h).1
  · exact (Step.sizeOf_branch _h).2
  · exact Step.sizeOf_loop _h

/-- Run a graph with tensors for its inputs. -/
def run (version : Option Int64) (chance : Generator) (g : Graph) (inputs : Scope Tensor) :
    RunResult (List Tensor) :=
  g.runIn version chance inputs []

end Graph

/-- Why a single node cannot be run. -/
inductive NodeRunError where
  | kernel (fault : OpFault)
  | nested (error : RunError)
  deriving DecidableEq, Repr

def NodeRunError.message : NodeRunError → String
  | kernel fault => fault.message
  | nested error => error.message

/-- Run a single node with a given operator.  Nested graphs see the values of a scope. -/
def Operator.runNode (version : Option Int64) (chance : Generator) (n : Node) (scope : Scope Tensor)
    (inputs : Inputs) : Operator → Except NodeRunError (List Tensor)
  | .kernel k =>
    (k.run (chance.forName n.displayName) inputs (some n.outputs.length)).mapError .kernel
  | .branch onTrue onFalse =>
    (runBranch n (fun _ => onTrue.runIn version chance [] scope)
      (fun _ => onFalse.runIn version chance [] scope) inputs).mapError .nested
  | .loop body =>
    (runLoop version n body (fun given => body.runIn version chance given scope)
      inputs).mapError .nested

end TensorGraph
