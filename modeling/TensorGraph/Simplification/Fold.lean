import TensorGraph.Evaluation.Basic
import TensorGraph.Graph.Edit
import TensorGraph.Simplification.Note
import TensorGraph.Simplification.Surroundings

/-!
# Folding constants

A node whose inputs are constants, or whose outputs are known from the facts about them, is
replaced by initializers.  An `If` node with a constant condition is replaced by the nodes of the
branch that is taken.
-/

namespace TensorGraph

/-- What a node is replaced by. -/
inductive Folding where
  /-- Its outputs are constants. -/
  | constants (values : List Initializer)
  /-- It stands for other nodes and initializers. -/
  | branch (nodes : List Node) (initializers : List Initializer)

/-- Why a node with constant inputs is not folded. -/
inductive FoldFault where
  | unsupported (error : ReadError)
  | evaluation (error : NodeRunError)
  | tooLarge (size limit : Nat)
  | outputCount (expected actual : Nat)
  deriving DecidableEq, Repr

/-- The words that describe why a node is not folded. -/
def FoldFault.message : FoldFault → String
  | unsupported error => "operator is not supported: " ++ error.message
  | evaluation error => "evaluation failed: " ++ error.message
  | tooLarge size limit =>
    "output has " ++ toString size ++ " bytes which exceeds the limit of " ++ toString limit
  | outputCount expected actual =>
    "operator produced " ++ toString actual ++ " outputs but " ++ toString expected ++
      " were expected"

/-! Constants that are written as nodes. -/

/-- The constant that a node stands for. -/
def Node.constant? (version : Option Int64) (n : Node) : Option Initializer :=
  if n.opType = "Constant" ∧ n.isDefaultDomain then
    match n.outputs.head?.filter (· ≠ ""), Operator.ofNode version n with
    | some output, .ok (.kernel (.constant value)) => some ⟨output, value⟩
    | _, _ => none
  else none

/-- Replace the nodes that stand for constants by initializers, the last ones first. -/
def Graph.lowerConstants (version : Option Int64) (g : Graph) : Graph :=
  { g with nodes := g.nodes.filter fun n => (n.constant? version).isNone }.setInitializers
    (g.nodes.filterMap (Node.constant? version)).reverse

/-! Nested graphs that are taken out of their node. -/

/-- A branch whose outputs get the names of a node's outputs.  An output that the branch does not
define, or that already has such a name, is copied. -/
structure Inlining where
  branch : Graph
  copies : List Node := []
  assigned : List String := []

namespace Inlining

/-- Let the output of the branch at a position have a name. -/
def assign (s : Inlining) (output : String) (i : Nat) : Inlining :=
  if output = "" then s
  else
    let current := (s.branch.outputs[i]?.map ValueInfo.name).getD ""
    let isLocal := (s.branch.producer? current).isSome || (s.branch.initializer? current).isSome
    let assigned := output :: s.assigned
    if isLocal && !s.assigned.contains current then
      { s with branch := s.branch.renameValue current output, assigned := assigned }
    else
      let copy : Node := { opType := "Identity", inputs := [current], outputs := [output] }
      { s with copies := s.copies ++ [copy], assigned := assigned }

end Inlining

/-- The nodes and initializers of a branch of an `If` node with a known condition. -/
def Node.inlineBranch? (n : Node) (condition : Bool) : Option Folding := do
  let branch ← n.graph? (if condition then "then_branch" else "else_branch")
  if !branch.inputs.isEmpty || branch.outputs.length < n.outputs.length then none
  else
    let s := n.outputs.zipIdx.foldl (fun s (output, i) => s.assign output i)
      ({ branch := branch } : Inlining)
    return .branch (s.branch.nodes ++ s.copies) s.branch.initializers

/-! Single nodes. -/

/-- Whether a graph holds a node that is not deterministic or cannot be run. -/
def Graph.isUnpredictable (version : Option Int64) (g : Graph) : Bool :=
  g.nodes.attach.any fun ⟨n, _node⟩ =>
    !((Operator.ofNode version n).toOption.map Operator.isDeterministic).getD false ||
      n.subgraphs.attach.any fun ⟨p, _inside⟩ => p.2.isUnpredictable version
termination_by sizeOf g
decreasing_by exact Graph.sizeOf_nested _node _inside

/-- What is known when nodes are folded. -/
structure FoldContext where
  version : Option Int64
  /-- The facts about the values of the graph. -/
  facts : Scope Facts
  /-- The constants of the graphs around the graph. -/
  outer : Scope Tensor
  /-- The largest number of bytes of an output. -/
  limit : Option Nat

namespace FoldContext

/-- The constant with a name, if its elements are available. -/
def constant? (c : FoldContext) (constants : Scope Tensor) (name : String) : Option Tensor :=
  ((constants.inside c.outer).get? name).filter Tensor.isEvaluable

/-- The known condition of an `If` node. -/
def condition? (c : FoldContext) (constants : Scope Tensor) (n : Node) : Option Bool := do
  match (← (← c.constant? constants (← n.input? 0)).int64s?).toList with
  | [value] => return value ≠ 0
  | _ => none

/-- The tensor that facts determine. -/
def tensorOfFacts? (f : Facts) : Option Tensor := do
  let values ← f.integers?
  let shape ← f.sizes?
  Tensor.ofInt64s? (← f.type) shape (values.map Int64.ofInt).toArray

/-- The outputs of a node that are known from the facts about them. -/
def inferred? (c : FoldContext) (n : Node) : Option Folding := do
  let operator ← (Operator.ofNode c.version n).toOption
  if !operator.isDeterministic || n.hasSubgraphs then none
  else
    let values ← n.presentOutputs.mapM fun name => do
      return (⟨name, ← tensorOfFacts? (← c.facts.get? name)⟩ : Initializer)
    return .constants values

/-- How many outputs of a node are asked for. -/
def expectedOutputs (n : Node) : Nat := (n.outputs.reverse.dropWhile (· = "")).length

/-- The outputs of a node as constants, unless there are too few of them or one is too large. -/
def checkOutputs (c : FoldContext) (n : Node) (outputs : List Tensor) :
    Except FoldFault Folding :=
  let expected := expectedOutputs n
  let tooLarge := c.limit.bind fun limit =>
    ((outputs.map Tensor.byteSize).find? (limit < ·)).map fun size => (size, limit)
  if outputs.length < expected then .error (.outputCount expected outputs.length)
  else
    match tooLarge with
    | some (size, limit) => .error (.tooLarge size limit)
    | none =>
      .ok (.constants (((n.outputs.zip outputs).filter fun p => p.1 ≠ "").map fun (name, t) =>
        ⟨name, t⟩))

/-- The generator for operators that do not draw from it. -/
def noChance : Generator := ⟨0⟩

/-- Compute the outputs of a node whose inputs are constants, if they are the same in every run. -/
def evaluate (c : FoldContext) (constants : Scope Tensor) (n : Node) :
    Except FoldFault (Option Folding) := do
  let operator ← (Operator.ofNode c.version n).mapError .unsupported
  if !operator.isDeterministic || n.subgraphs.any (fun p => p.2.isUnpredictable c.version) then
    return none
  else
    let inputs := n.inputs.map fun name => if name = "" then none else c.constant? constants name
    let captured := n.reads.filterMap fun name =>
      (c.constant? constants name).map fun t => (name, t)
    let outputs ← (operator.runNode c.version noChance n (.ofBindings captured) inputs).mapError
      .evaluation
    some <$> c.checkOutputs n outputs

/-- What a node is replaced by, if anything. -/
def fold (c : FoldContext) (constants : Scope Tensor) (n : Node) :
    Except FoldFault (Option Folding) :=
  if !n.isDefaultDomain || n.presentOutputs.isEmpty then .ok none
  else
    let inlined := if n.opType = "If" then (c.condition? constants n).bind n.inlineBranch? else none
    match inlined with
    | some folding => .ok (some folding)
    | none =>
      if n.reads.all fun name => (c.constant? constants name).isSome then c.evaluate constants n
      else .ok (c.inferred? n)

end FoldContext

/-! Whole graphs. -/

/-- The foldings that were found so far, with the indexes of their nodes, and all constants. -/
structure FoldState where
  constants : Scope Tensor
  foldings : List (Nat × Folding) := []
  notes : List Note := []

namespace FoldState

/-- Fold a node if that can be done. -/
def step (c : FoldContext) (path : String) (s : FoldState) (i : Nat) (n : Node) : FoldState :=
  let note (level : NoteLevel) (text : String) : Note :=
    { level := level, graph := path, node := n.displayName, text := text }
  match c.fold s.constants n with
  | .error fault =>
    let warning := note .warn ("cannot fold " ++ n.opType ++ ": " ++ fault.message)
    { s with notes := s.notes ++ [warning] }
  | .ok none => s
  | .ok (some folding) =>
    { constants :=
        match folding with
        | .constants values => values.foldl (fun known v => known.bind v.name v.value) s.constants
        | .branch _ _ => s.constants
      foldings := (i, folding) :: s.foldings
      notes := s.notes ++ [note .info ("folded " ++ n.opType)] }

end FoldState

namespace Graph

/-- Find the nodes that can be folded, in a given order. -/
def findFoldings (g : Graph) (c : FoldContext) (path : String) (order : List Nat) : FoldState :=
  order.foldl (fun s i =>
    match g.nodes[i]? with
    | some n => s.step c path i n
    | none => s) { constants := g.constants }

/-- Add a node, or what it is replaced by. -/
def addFolded (g : Graph) (n : Node) : Option Folding → Graph
  | none => g.addNode n
  | some (.constants values) => g.setInitializers values
  | some (.branch nodes initializers) =>
    { g with nodes := g.nodes ++ nodes }.setInitializers initializers

/-- Replace nodes, which are given by their indexes. -/
def applyFoldings (g : Graph) (foldings : List (Nat × Folding)) : Graph :=
  g.nodes.zipIdx.foldl (fun g (n, i) => g.addFolded n (foldings.lookup i)) { g with nodes := [] }

/-- Fold all nodes that can be folded.  The result is in topological order, if it has one. -/
def foldConstants (g : Graph) (c : FoldContext) (path : String) :
    List Note × Except Cycle Graph :=
  match g.topologicalOrder with
  | .error cycle => ([], .error cycle)
  | .ok order =>
    let s := g.findFoldings c path order
    if s.foldings.isEmpty then (s.notes, .ok g)
    else (s.notes, (g.applyFoldings s.foldings).sortTopologically)

end Graph
end TensorGraph
