import TensorGraph.Graph.Order

/-!
# Ordering by counting

The topological order is found without searching all nodes for the next one.  For each node the reads
are counted that wait for a node which is not ordered yet.  A node without such reads is ready, the
first of the ready nodes is ordered, and all reads of what it produces are served.
-/

namespace TensorGraph

/-- The state of ordering by counting. -/
structure Worklist where
  /-- For each node, how many of its reads wait. -/
  pending : List Nat
  /-- The nodes that can come next. -/
  ready : List Nat
  /-- The nodes that are ordered. -/
  order : List Nat
  deriving DecidableEq, Repr

namespace Worklist

/-- The nodes that read what a node produces, once for each read. -/
def consumers (deps : List (List Nat)) (i : Nat) : List Nat :=
  deps.zipIdx.flatMap fun (ds, c) => (ds.filter (· == i)).map fun _ => c

/-- Nothing is ordered, and nodes that read nothing from others are ready. -/
def start (deps : List (List Nat)) : Worklist where
  pending := deps.map List.length
  ready := (List.range deps.length).filter fun i => (deps.getD i []).length = 0
  order := []

/-- Serve one read of a node. -/
def serve (s : Worklist) (c : Nat) : Worklist :=
  let waiting := s.pending.getD c 0 - 1
  { s with
    pending := s.pending.set c waiting
    ready := if waiting = 0 then c :: s.ready else s.ready }

/-- Order a ready node. -/
def take (readers : List (List Nat)) (s : Worklist) (i : Nat) : Worklist :=
  (readers.getD i []).foldl serve { s with ready := s.ready.erase i, order := s.order ++ [i] }

/-- Order the first of the ready nodes as long as there is one, at most `count` times. -/
def run (readers : List (List Nat)) : Nat → Worklist → Worklist
  | 0, s => s
  | count + 1, s =>
    match s.ready.min? with
    | some i => run readers count (s.take readers i)
    | none => s

end Worklist

namespace Graph

/-- The indexes of the nodes in topological order, found by counting. -/
def orderByCounting (g : Graph) : Except Cycle (List Nat) :=
  let deps := g.dependencies
  let indexes := List.range deps.length
  match indexes.find? fun i => (deps.getD i []).contains i with
  | some i => .error ⟨g.nodeName i⟩
  | none =>
    let readers := indexes.map (Worklist.consumers deps)
    let s := Worklist.run readers deps.length (Worklist.start deps)
    if s.order.length < deps.length then
      .error ⟨((indexes.find? fun i => 0 < s.pending.getD i 0).map g.nodeName).getD ""⟩
    else .ok s.order

/-- Put the nodes into topological order in place: the outcome, and the graph afterwards. -/
def sortInPlace (g : Graph) : Except Cycle Unit × Graph :=
  match g.orderByCounting with
  | .error c => (.error c, g)
  | .ok order =>
    if order = List.range order.length then (.ok (), g)
    else (.ok (), { g with nodes := order.filterMap fun i => g.nodes[i]? })

end Graph
end TensorGraph
