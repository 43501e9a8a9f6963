import TensorGraph.Graph.Edit
import TensorGraph.Simplification.View

/-!
# Changes to nodes

A change removes a node, whose readers then read other values, or replaces it by other nodes.  The
number of nodes before and behind the node stays the same (`Change.apply_length`).
-/

namespace TensorGraph

/-- A change to a node. -/
inductive Change where
  /-- Remove the node.  What read the first value of a pair reads the second one. -/
  | forward (pairs : List (String × String))
  /-- Replace the node, and add initializers. -/
  | replace (nodes : List Node) (initializers : List Initializer)

namespace Graph

/-- Let what read a value read another one.  An output keeps its name; then the other value is
renamed. -/
def forwardValue (g : Graph) (pair : String × String) : Graph :=
  if g.isOutput pair.1 then g.renameValue pair.2 pair.1 else g.replaceUses pair.1 pair.2

/-- Remove the node at an index and forward its outputs. -/
def forwardNode (g : Graph) (index : Nat) (pairs : List (String × String)) : Graph :=
  pairs.foldl forwardValue { g with nodes := g.nodes.eraseIdx index }

/-- Whether a value is produced by a node other than that at an index. -/
def isProducedElsewhere (g : Graph) (index : Nat) (name : String) : Bool :=
  match g.lastProducer? name with
  | some i => i ≠ index
  | none => false

/-- Whether the outputs among some values can be forwarded: each of them needs another value that is
produced by another node, is no output, and has not been renamed. -/
def canForward (g : Graph) (index : Nat) (renamed : List String) : List (String × String) → Bool
  | [] => true
  | (source, target) :: rest =>
    if g.isOutput source then
      g.isProducedElsewhere index target && !g.isOutput target && !renamed.contains target &&
        g.canForward index (target :: renamed) rest
    else g.canForward index renamed rest

theorem length_replaceUses (g : Graph) (old new : String) :
    (g.replaceUses old new).nodes.length = g.nodes.length := by
  rw [replaceUses]
  simp

theorem length_renameValue (g : Graph) (old new : String) :
    (g.renameValue old new).nodes.length = g.nodes.length := by
  simp [renameValue, length_replaceUses]

theorem length_forwardValue (g : Graph) (pair : String × String) :
    (g.forwardValue pair).nodes.length = g.nodes.length := by
  unfold forwardValue
  split
  · exact length_renameValue g pair.2 pair.1
  · exact length_replaceUses g pair.1 pair.2

theorem length_forwardNode (g : Graph) {index : Nat} (pairs : List (String × String))
    (h : index < g.nodes.length) :
    (g.forwardNode index pairs).nodes.length + 1 = g.nodes.length := by
  have fold : ∀ g' : Graph,
      (pairs.foldl forwardValue g').nodes.length = g'.nodes.length := by
    induction pairs with
    | nil => exact fun _ => rfl
    | cons p rest ih => exact fun g' => (ih _).trans (length_forwardValue g' p)
  unfold forwardNode
  rw [fold]
  simp only [List.length_eraseIdx, h, if_true]
  omega

theorem nodes_setInitializers (g : Graph) (values : List Initializer) :
    (g.setInitializers values).nodes = g.nodes := by
  unfold setInitializers
  induction values generalizing g with
  | nil => rfl
  | cons v rest ih => exact ih _

theorem length_replaceNode {g g' : Graph} {index : Nat} {news : List Node}
    (h : index < g.nodes.length) (done : g.replaceNode index news = .ok g') :
    g'.nodes.length + 1 = g.nodes.length + news.length := by
  unfold replaceNode at done
  simp only [List.getElem?_eq_getElem h] at done
  split at done
  · simp at done
  · simp only [Except.ok.injEq] at done
    subst done
    simp
    omega

end Graph

namespace Change

/-- Whether the outputs of the graph stay defined under their names when the node at an index is
changed. -/
def isApplicable (v : View) (index : Nat) : Change → Bool
  | forward pairs => v.graph.canForward index [] pairs
  | replace nodes _ =>
    let produced := nodes.flatMap Node.presentOutputs
    match v.graph.nodes[index]? with
    | some n => n.presentOutputs.all fun o => produced.contains o || !v.isUsed o
    | none => false

/-- Change the node at an index.  The number of nodes that it is replaced by is returned with the
graph. -/
def apply (g : Graph) (index : Nat) : Change → Except Malformation (Graph × Nat)
  | forward pairs => .ok (g.forwardNode index pairs, 0)
  | replace nodes initializers => do
    return ((← g.replaceNode index nodes).setInitializers initializers, nodes.length)

/-- A change puts a number of nodes in place of one. -/
theorem apply_length {r : Change} {g g' : Graph} {index count : Nat} (h : index < g.nodes.length)
    (done : r.apply g index = .ok (g', count)) :
    g'.nodes.length + 1 = g.nodes.length + count := by
  cases r with
  | forward pairs =>
    simp only [apply, Except.ok.injEq, Prod.mk.injEq] at done
    obtain ⟨rfl, rfl⟩ := done
    exact Graph.length_forwardNode g pairs h
  | replace nodes initializers =>
    cases hr : g.replaceNode index nodes with
    | error e => simp [apply, hr, bind, Except.bind] at done
    | ok g'' =>
      simp only [apply, hr, bind, Except.bind, pure, Except.pure, Except.ok.injEq,
        Prod.mk.injEq] at done
      obtain ⟨rfl, rfl⟩ := done
      rw [Graph.nodes_setInitializers]
      exact Graph.length_replaceNode h hr

end Change
end TensorGraph
