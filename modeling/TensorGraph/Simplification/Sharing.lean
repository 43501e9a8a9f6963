import TensorGraph.Graph.Storage
import TensorGraph.Simplification.Elimination

/-!
# Sharing equal values

Of initializers with the same contents one is kept, and of nodes that compute the same values the
first one is kept.
-/

namespace TensorGraph

/-- The initializers without equal ones before them, and the others, each with the name of the kept
one that is equal to it. -/
structure InitializerClasses where
  kept : List Initializer := []
  duplicates : List (String × String) := []

namespace InitializerClasses

/-- Compare an initializer of a graph with those that are kept.  Inputs are not compared, since
another value may be given for them, and outputs are no duplicates. -/
def add (g : Graph) (s : InitializerClasses) (i : Initializer) : InitializerClasses :=
  if g.isInput i.name then s
  else
    match s.kept.find? fun other => other.value.sameContents i.value with
    | none => { s with kept := s.kept ++ [i] }
    | some other =>
      if g.isOutput i.name then s
      else { s with duplicates := s.duplicates ++ [(i.name, other.name)] }

end InitializerClasses

namespace Graph

/-- The initializers that are equal to other ones, each with the name of that one. -/
def duplicateInitializers (g : Graph) : List (String × String) :=
  (g.initializers.foldl (InitializerClasses.add g) {}).duplicates

/-- Remove initializers that are equal to other ones.  Their number is returned with the graph. -/
def mergeInitializers (g : Graph) : Graph × Nat :=
  let duplicates := g.duplicateInitializers
  let redirected := duplicates.foldl (fun g (old, new) => g.replaceUses old new) g
  let removed := duplicates.map Prod.fst
  ({ redirected with
      initializers := redirected.initializers.filter fun i => !removed.contains i.name },
    duplicates.length)

end Graph

namespace View

/-- The outputs of a node with those of another node at the same positions.  There is no pairing if
an output lacks a partner. -/
def pairOutputs? : List String → List String → Option (List (String × String))
  | output :: outputs, other :: others =>
    if output = "" then pairOutputs? outputs others
    else if other = "" then none
    else (pairOutputs? outputs others).map ((output, other) :: ·)
  | _, _ => some []

/-- Let what reads a node at an index read an earlier node that computes the same. -/
def mergeNodes (v : View) (index : Nat) (n : Node) : Option Change := do
  let operator ← (Operator.ofNode v.version n).toOption
  if n.hasSubgraphs || n.presentOutputs.isEmpty || !operator.isDeterministic then none
  else
    let earlier ← (v.graph.nodes.take index).find? fun other => other.sameComputation n
    return .forward (← pairOutputs? n.outputs earlier.outputs)

end View
end TensorGraph
