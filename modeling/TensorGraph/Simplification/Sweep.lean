import TensorGraph.Simplification.Fusion
import TensorGraph.Simplification.Note
import TensorGraph.Simplification.Rule
import TensorGraph.Simplification.Sharing

/-!
# Offering nodes to rules

In a sweep each node is offered to the rules once, and the first change that can be made is made.
Nodes that are put in are not offered again, so the nodes that are left to offer become fewer with
each step.
-/

namespace TensorGraph

namespace Graph

/-- The names of the values in a graph and its nested graphs. -/
def allNames (g : Graph) : List String :=
  g.definedNames ++
    g.nodes.attach.flatMap fun ⟨n, _node⟩ =>
      n.subgraphs.attach.flatMap fun ⟨p, _inside⟩ => p.2.allNames
termination_by sizeOf g
decreasing_by exact sizeOf_nested _node _inside

end Graph

namespace Rule

/-- The change of the node at an index that a rule proposes.  Rules may take names for new values.
-/
def propose (v : View) (taken : List String) (index : Nat) (n : Node) :
    Rule → List String × Option Change
  | eliminateIdentity => (taken, v.eliminateIdentity n)
  | eliminateNopDropout => (taken, v.eliminateNopDropout n)
  | eliminateNopCast => (taken, v.eliminateNopCast n)
  | eliminateNopReshape => (taken, v.eliminateSameShape "Reshape" n)
  | eliminateNopTranspose => (taken, v.eliminateNopTranspose n)
  | eliminateNopExpand => (taken, v.eliminateSameShape "Expand" n)
  | eliminateNopArithmetic => (taken, v.eliminateNopArithmetic n)
  | fuseReshapes => (taken, v.fuseReshapes n)
  | fuseTransposes => (taken, v.fuseTransposes n)
  | fuseSqueezeUnsqueeze => (taken, v.fuseSqueezeUnsqueeze n)
  | fuseNormalizationIntoConv => v.fuseNormalizationIntoConv taken n
  | fuseProductAndSum => (taken, v.fuseProductAndSum n)
  | mergeInitializers => (taken, none)
  | mergeNodes => (taken, v.mergeNodes index n)

end Rule

/-- A change with the rule that proposed it. -/
structure Proposal where
  rule : Rule
  change : Change

/-- The first proposal of some rules that can be followed. -/
def firstProposal (v : View) (index : Nat) (n : Node) :
    List Rule → List String → List String × Option Proposal
  | [], taken => (taken, none)
  | rule :: rest, taken =>
    match rule.propose v taken index n with
    | (taken, some change) =>
      if change.isApplicable v index then (taken, some ⟨rule, change⟩)
      else firstProposal v index n rest taken
    | (taken, none) => firstProposal v index n rest taken

/-- What a sweep has done so far. -/
structure SweepState where
  graph : Graph
  taken : List String
  notes : List Note := []

namespace SweepState

/-- Note something about a node. -/
def note (s : SweepState) (path : String) (n : Node) (text : String) : SweepState :=
  { s with
    notes := s.notes ++
      [{ level := .info, graph := path, node := n.displayName, text := text }] }

end SweepState

/-- Makes a proposal for the node at an index of a graph, when some names are taken. -/
abbrev Proposer := Graph → Nat → Node → List String → List String × Option Proposal

/-- Offer the nodes from an index on. -/
def sweepFrom (propose : Proposer) (path : String) (index : Nat) (s : SweepState) : SweepState :=
  if h : index < s.graph.nodes.length then
    let n := s.graph.nodes[index]
    match propose s.graph index n s.taken with
    | (taken, none) => sweepFrom propose path (index + 1) { s with taken := taken }
    | (taken, some p) =>
      let s := { s with taken := taken }
      match _applied : p.change.apply s.graph index with
      | .ok (g, count) =>
        sweepFrom propose path (index + count)
          (({ s with graph := g }).note path n ("applied " ++ p.rule.name))
      | .error m =>
        sweepFrom propose path (index + 1)
          (s.note path n ("skipped " ++ p.rule.name ++ ": malformed graph: " ++ m.message))
  else s
termination_by s.graph.nodes.length - index
decreasing_by
  · omega
  · have := Change.apply_length h _applied
    simp only [SweepState.note]
    omega
  · simp only [SweepState.note]
    omega

namespace Graph

/-- Offer each node to the rules, and then the initializers.  The notes of the sweep are returned
with the graph. -/
def applyRules (g : Graph) (version : Option Int64) (rules : List Rule) (facts : Scope Facts)
    (surroundings : Surroundings) (path : String) : Graph × List Note :=
  let propose : Proposer := fun g index n taken =>
    firstProposal { version, graph := g, facts, surroundings } index n rules taken
  let s := sweepFrom propose path 0 { graph := g, taken := surroundings.names ++ g.allNames }
  if rules.contains .mergeInitializers then
    let (merged, count) := s.graph.mergeInitializers
    let text := "applied " ++ Rule.mergeInitializers.name ++ " " ++ toString count ++ " times"
    let note : Note := { level := .info, graph := path, node := g.name.getD "", text := text }
    (merged, if count = 0 then s.notes else s.notes ++ [note])
  else (s.graph, s.notes)

end Graph
end TensorGraph
