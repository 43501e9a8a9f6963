import TensorGraph.Malformation
import TensorGraph.Graph.Reads

/-!
# Changes to graphs

Redirecting the readers of a value, renaming a value, and replacing a node by others.
-/

namespace TensorGraph

/-- `new` in place of `old`. -/
def substituteName (old new name : String) : String := if name = old then new else name

namespace Graph

/-- Let the readers of `old` read `new`, also in nested graphs that take `old` from outside.  The
graph's own outputs stay. -/
def replaceUses (g : Graph) (old new : String) : Graph :=
  { g with
    nodes := g.nodes.map fun n =>
      let n' := { n with inputs := n.inputs.map (substituteName old new) }
      { n' with
        attributes := (n.mapSubgraphs fun sub _ =>
          if sub.captures.contains old then
            let sub' := sub.replaceUses old new
            { sub' with
              outputs := sub'.outputs.map fun o =>
                { o with name := substituteName old new o.name } }
          else sub).attributes } }
termination_by sizeOf g
decreasing_by exact Nat.lt_trans ‹_› (sizeOf_nodes ‹_›)

/-- Rename a value wherever it is defined, read or declared. -/
def renameValue (g : Graph) (old new : String) : Graph :=
  let g := g.replaceUses old new
  let rename (v : ValueInfo) : ValueInfo := { v with name := substituteName old new v.name }
  { g with
    nodes := g.nodes.map fun n => { n with outputs := n.outputs.map (substituteName old new) }
    initializers := g.initializers.map fun i => { i with name := substituteName old new i.name }
    inputs := g.inputs.map rename
    outputs := g.outputs.map rename
    valueInfo := g.valueInfo.map rename }

/-- Whether a value is still read when the node at an index has been replaced. -/
def usedAfterReplacing (g : Graph) (index : Nat) (news : List Node) (name : String) : Bool :=
  (g.nodes.eraseIdx index ++ news).any (fun n => n.reads.contains name) || g.isOutput name

/-- Replace the node at an index by others.  It fails, and the graph stays as it is, if a value
that is still used would lose its producer. -/
def replaceNode (g : Graph) (index : Nat) (news : List Node) : Except Malformation Graph :=
  match g.nodes[index]? with
  | none => .ok g
  | some node =>
    let kept := news.flatMap Node.presentOutputs
    match node.presentOutputs.find? fun o =>
        !kept.contains o && g.usedAfterReplacing index news o with
    | some o => .error (.usedValueRemoved node.displayName o)
    | none => .ok { g with nodes := g.nodes.take index ++ news ++ g.nodes.drop (index + 1) }

end Graph
end TensorGraph
