import TensorGraph.Facts.Basic
import TensorGraph.Scope

/-!
# Surroundings of a graph

A nested graph reads values of the graphs around it.  Its surroundings are what is known about these
values, and their names, which it must not define again.
-/

namespace TensorGraph

/-- What is known about the values of the graphs around a graph. -/
structure Surroundings where
  facts : Scope Facts := []
  constants : Scope Tensor := []
  /-- The names of all values. -/
  names : List String := []
  deriving Inhabited

namespace Graph

/-- The initializers as a scope. -/
def constants (g : Graph) : Scope Tensor :=
  Scope.ofBindings (g.initializers.map fun i => (i.name, i.value))

end Graph

namespace Surroundings

/-- What is known about the values around the nested graphs of a graph, given the facts about its
own values. -/
def enter (s : Surroundings) (g : Graph) (facts : Scope Facts) : Surroundings :=
  { facts := facts.inside s.facts
    constants := g.constants.inside s.constants
    names := g.definedNames ++ s.names }

end Surroundings
end TensorGraph
