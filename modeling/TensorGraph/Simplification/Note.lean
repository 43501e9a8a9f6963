import TensorGraph.Malformation

/-!
# Notes

What a simplification did, and what it could not do, is noted with the graph and the node.
-/

namespace TensorGraph

/-- Which notes are collected, and what kind of note one is. -/
inductive NoteLevel where
  /-- No notes. -/
  | off
  /-- What could not be simplified. -/
  | warn
  /-- Also what was simplified. -/
  | info
  deriving DecidableEq, Repr

/-- A note about a node of a graph. -/
structure Note where
  level : NoteLevel
  /-- The path of the graph. -/
  graph : String
  node : String
  text : String
  deriving DecidableEq, Repr

namespace Note

/-- The written form of a note. -/
def message (n : Note) : String := n.graph ++ ": node " ++ quoted n.node ++ ": " ++ n.text

/-- The notes of a level.  Of several warnings about a node only the first is kept. -/
def collect (limit : NoteLevel) (notes : List Note) : List Note :=
  (notes.foldl (fun (kept, warned) n =>
    match n.level, limit with
    | .off, _ | _, .off | .info, .warn => (kept, warned)
    | .info, .info => (n :: kept, warned)
    | .warn, .warn | .warn, .info =>
      if warned.contains (n.graph, n.node) then (kept, warned)
      else (n :: kept, (n.graph, n.node) :: warned))
    (([], []) : List Note × List (String × String))).1.reverse

end Note
end TensorGraph
