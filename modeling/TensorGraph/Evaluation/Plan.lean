import TensorGraph.Graph.Order
import TensorGraph.Operator.Reading
import TensorGraph.Scope

/-!
# Plans

A plan for running a graph: its nodes in topological order, each with its operator.
-/

namespace TensorGraph

/-- Why a graph cannot be run. -/
inductive RunError where
  | missingInput (name : String)
  | unknownValue (name : String)
  | unsupportedOperator (node opType : String) (error : ReadError)
  | operator (node opType : String) (fault : OpFault)
  | outputCount (node opType : String) (expected actual : Nat)
  | inSubgraph (node : String) (error : RunError)
  | plan (cycle : Cycle)
  deriving DecidableEq, Repr

/-- The words that describe why a graph cannot be run. -/
def RunError.message : RunError → String
  | missingInput name => "missing value for graph input " ++ quoted name
  | unknownValue name => "value " ++ quoted name ++ " is not defined"
  | unsupportedOperator node opType error =>
    "cannot run " ++ opType ++ " node " ++ quoted node ++ ": " ++ error.message
  | operator node opType fault => opType ++ " node " ++ quoted node ++ " failed: " ++ fault.message
  | outputCount node opType expected actual =>
    opType ++ " node " ++ quoted node ++ " produced " ++ toString actual ++ " outputs but " ++
      toString expected ++ " were expected"
  | inSubgraph node error => "error in subgraph of node " ++ quoted node ++ ": " ++ error.message
  | plan cycle => "planning failed: " ++ cycle.message

/-- The result of running something. -/
abbrev RunResult (α : Type) := Except RunError α

/-- A node of a graph with its operator. -/
structure Step (version : Option Int64) (g : Graph) where
  node : Node
  operator : Operator
  mem : node ∈ g.nodes
  read : Operator.ofNode version node = .ok operator

namespace Graph

/-- The step for the node at an index. -/
def stepAt (version : Option Int64) (g : Graph) (i : Fin g.nodes.length) :
    RunResult (Step version g) :=
  match h : Operator.ofNode version g.nodes[i] with
  | .ok operator =>
    .ok { node := g.nodes[i], operator := operator, mem := List.getElem_mem i.2, read := h }
  | .error e => .error (.unsupportedOperator g.nodes[i].displayName g.nodes[i].opType e)

/-- The steps that run a graph, in order. -/
def plan (version : Option Int64) (g : Graph) : RunResult (List (Step version g)) := do
  let order ← g.topologicalOrder.mapError .plan
  let inRange := order.filterMap fun i => if h : i < g.nodes.length then some ⟨i, h⟩ else none
  inRange.mapM (g.stepAt version)

end Graph

namespace Step

variable {version : Option Int64} {g : Graph}

/-- The branches of a step are smaller than its graph. -/
theorem sizeOf_branch {s : Step version g} {onTrue onFalse : Graph}
    (h : s.operator = .branch onTrue onFalse) :
    sizeOf onTrue < sizeOf g ∧ sizeOf onFalse < sizeOf g := by
  have read := s.read
  rw [h] at read
  have smaller := Operator.sizeOf_branch read
  have inside := Graph.sizeOf_nodes s.mem
  exact ⟨Nat.lt_trans smaller.1 inside, Nat.lt_trans smaller.2 inside⟩

/-- The body of a step is smaller than its graph. -/
theorem sizeOf_loop {s : Step version g} {body : Graph} (h : s.operator = .loop body) :
    sizeOf body < sizeOf g := by
  have read := s.read
  rw [h] at read
  exact Nat.lt_trans (Operator.sizeOf_loop read) (Graph.sizeOf_nodes s.mem)

end Step
end TensorGraph
