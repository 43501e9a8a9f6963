import TensorGraph.Facts.Propagation
import TensorGraph.Simplification.Error
import TensorGraph.Simplification.Fold
import TensorGraph.Simplification.Outline
import TensorGraph.Simplification.Sweep
import TensorGraph.Simplification.Prune

/-!
# Passes until nothing changes

A graph is simplified in passes: constants are folded, rules are applied, and what is not used is
removed.  The passes end when one of them changes nothing, or when there were as many as the
options allow.  Then the nested graphs are simplified in the same way, each on a copy that is used
only if it is a valid graph with the same inputs and outputs.
-/

namespace TensorGraph

/-- How graphs are simplified. -/
structure Simplifier where
  /-- The version of the default operator set. -/
  version : Option Int64
  options : Options

namespace Graph

/-- The facts that are declared, without those that follow from them. -/
def declaredFacts (g : Graph) : Scope Facts :=
  Scope.ofBindings
    ((g.inputs ++ g.valueInfo ++ g.outputs).map (fun v => (v.name, Facts.ofValueInfo v)) ++
      g.initializers.map fun i => (i.name, Facts.ofTensor i.value))

/-- What is declared of the output of a node from now on: what is known of it, or else what was
declared before. -/
def updatedDeclaration? (g : Graph) (facts : Scope Facts) (name : String) : Option ValueInfo :=
  if g.isOutput name || (g.initializer? name).isSome then none
  else
    match (facts.get? name).filter fun f => f.type.isSome || f.shape.isSome with
    | some f => some { name := name, type := f.type, shape := f.shape }
    | none => (Scope.ofBindings (g.valueInfo.map fun v => (v.name, v))).get? name

/-- Fill in what is not declared of an output. -/
def fillDeclaration (facts : Scope Facts) (v : ValueInfo) : ValueInfo :=
  match facts.get? v.name with
  | none => v
  | some f => { v with type := v.type.or f.type, shape := v.shape.or f.shape }

/-- Declare what is known of the outputs of nodes, in topological order. -/
def updateDeclarations (g : Graph) (facts : Scope Facts) : Except Cycle Graph := do
  let order ← g.topologicalOrder
  let names := (order.filterMap fun i => g.nodes[i]?).flatMap Node.presentOutputs
  return { g with
    valueInfo := names.filterMap (g.updatedDeclaration? facts)
    outputs := g.outputs.map (fillDeclaration facts) }

/-- Check that a nested graph can take the place of another one. -/
def checkInterface (old new : Graph) : Except Malformation Unit :=
  if old.inputs.map ValueInfo.name ≠ new.inputs.map ValueInfo.name ∨
      old.outputs.length ≠ new.outputs.length then
    .error .interfaceChanged
  else .ok ()

end Graph

/-- Change each graph in an attribute's value, in order. -/
def AttributeValue.mapGraphsM {m : Type → Type} [Monad m] (f : Graph → m Graph) :
    AttributeValue → m AttributeValue
  | .graph g => .graph <$> f g
  | .graphs gs => .graphs <$> gs.mapM f
  | v => pure v

/-- Change each nested graph of a node, in order.  The name of the attribute is given with the
graph. -/
def Node.mapGraphsM {m : Type → Type} [Monad m] (f : String → Graph → m Graph) (n : Node) :
    m Node := do
  let attributes ← n.attributes.mapM fun a => do
    return { a with value := ← a.value.mapGraphsM (f a.name) }
  return { n with attributes := attributes }

/-- Whether a node chooses between branches by a condition that is not among some constants. -/
def Node.hasUnknownCondition (n : Node) (constants : Scope Tensor) : Bool :=
  n.opType = "If" && n.isDefaultDomain &&
    match n.input? 0 with
    | some condition => !constants.contains condition
    | none => false

namespace Simplifier

/-- The facts about the values of a graph. -/
def facts (s : Simplifier) (around : Surroundings) (g : Graph) : Scope Facts :=
  if s.options.skipShapeInference then g.declaredFacts else g.infer s.version around.facts

/-- Remove what is not used. -/
def prune (s : Simplifier) (g : Graph) : Graph :=
  (g.eliminateDeadCode s.version).removeUnusedInitializers

/-- Fold constants, unless that is switched off. -/
def foldConstants (s : Simplifier) (around : Surroundings) (facts : Scope Facts) (path : String)
    (g : Graph) : Simplifying Graph :=
  if s.options.skipConstantFolding then pure g
  else do
    let context : FoldContext :=
      { version := s.version
        facts := facts
        outer := around.constants
        limit := s.options.sizeThreshold }
    let (notes, folded) := g.foldConstants context path
    Simplifying.addNotes notes
    Simplifying.ofExcept .cyclic folded

/-- Apply the rules, unless all of them are switched off. -/
def applyRules (s : Simplifier) (around : Surroundings) (facts : Scope Facts) (path : String)
    (g : Graph) : Simplifying Graph :=
  if s.options.rules.isEmpty then pure g
  else do
    let (changed, notes) := g.applyRules s.version s.options.rules facts around path
    Simplifying.addNotes notes
    Simplifying.sorted changed

/-- One pass over a graph. -/
def pass (s : Simplifier) (around : Surroundings) (path : String) (g : Graph) :
    Simplifying Graph := do
  let facts := s.facts around g
  let folded ← s.foldConstants around facts path g
  let changed ← s.applyRules around facts path folded
  return s.prune changed

/-- Make passes until one changes nothing, at most a number of times. -/
def iterate (s : Simplifier) (around : Surroundings) (path : String) :
    Nat → Graph → Simplifying Graph
  | 0, g => do
    let text := "iteration limit of " ++ toString s.options.maxIterations ++ " passes reached"
    Simplifying.addNotes
      [{ level := .warn, graph := path, node := g.name.getD "", text := text }]
    modify fun r => { r with limitReached := true }
    return g
  | passes + 1, g => do
    let next ← s.pass around path g
    if next.outline = g.outline then return next else s.iterate around path passes next

/-- Simplify a graph without its nested graphs. -/
def simplifyFlat (s : Simplifier) (around : Surroundings) (path : String) (g : Graph) :
    Simplifying Graph := do
  let sorted ← Simplifying.sorted (g.lowerConstants s.version)
  s.iterate around path s.options.maxIterations sorted

/-- Simplify a nested graph by a given function.  If that fails the graph stays as it is. -/
def simplifyNested (simplify : Graph → Simplifying Graph) (around : Surroundings)
    (unknownCondition : Bool) (location : String) (g : Graph) : StateM Report Graph := do
  let attempt : Simplifying Graph := do
    let simplified ← simplify g
    Simplifying.ofExcept .malformed (simplified.validate around.names)
    Simplifying.ofExcept .malformed (g.checkInterface simplified)
    return simplified
  match ← attempt.run with
  | .ok simplified =>
    if unknownCondition then modify fun r => r.addUnsimplified ⟨location, .unknownCondition⟩
    return simplified
  | .error e =>
    modify fun r => r.addUnsimplified ⟨location, .failure e⟩
    return g

/-- Simplify the nested graphs of a graph by a given function. -/
def simplifyAllNested (s : Simplifier)
    (simplify : Surroundings → String → Graph → Simplifying Graph) (around : Surroundings)
    (path : String) (g : Graph) : StateM Report Graph := do
  let inner := around.enter g (s.facts around g)
  let nodes ← g.nodes.mapM fun n =>
    n.mapGraphsM fun key nested =>
      let location := path ++ "/" ++ n.displayName ++ "." ++ key
      simplifyNested (simplify inner location) inner (n.hasUnknownCondition inner.constants)
        location nested
  return { g with nodes := nodes }

/-- Declare what is known, unless facts are not inferred. -/
def declare (s : Simplifier) (around : Surroundings) (g : Graph) : Simplifying Graph :=
  if s.options.skipShapeInference then pure g
  else Simplifying.ofExcept .cyclic (g.updateDeclarations (s.facts around g))

/-- Simplify a graph and its nested graphs down to a depth. -/
def simplifyGraph (s : Simplifier) : Nat → Surroundings → String → Graph → Simplifying Graph
  | depth, around, path, g => do
    let flat ← s.simplifyFlat around path g
    if s.options.includeSubgraph && flat.nodes.any Node.hasSubgraphs then
      match depth with
      | 0 => s.declare around flat
      | depth + 1 =>
        let nested ← s.simplifyAllNested (s.simplifyGraph depth) around path flat
        s.declare around (s.prune nested)
    else s.declare around flat

/-- The path of a graph that is not nested. -/
def rootPath (g : Graph) : String := (g.name.filter (· ≠ "")).getD "main"

/-- Simplify a graph that is not nested.  No pass nests graphs more deeply. -/
def run (s : Simplifier) (g : Graph) : Simplifying Graph :=
  s.simplifyGraph g.depth {} (rootPath g) g

end Simplifier
end TensorGraph
