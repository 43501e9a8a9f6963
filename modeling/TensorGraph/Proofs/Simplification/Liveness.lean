import Mathlib
import TensorGraph.Proofs.Preservation.Prune

/-!
# Exactly the dead nodes are removed

Input:

* a graph in topological order.

Algorithm:

* `Graph.liveFlags` goes through the nodes once, from the last one to the first.  A node is kept if it
  produces a live name, and then the names that it reads, also in nested graphs, are live too.

A value reaches an output if it is one, or if a node reads it that has an output which reaches one
(`Graph.ReachesOutput`).  The nodes are in order, so all readers of a value are seen before its
producer, and the live names are the values that reach an output (`Graph.mem_liveNames_iff`).

Main result:

* `Graph.removeDeadCode_exact`: the nodes that are left are those with an output that reaches an
  output of the graph, and a second run finds nothing to remove.
-/

namespace TensorGraph

variable {version : Option Int64}

/-! ## Nodes that are needed stay as they are -/

theorem trimOmitted_of_getLast? {required : Nat} {outputs : List String}
    (last : (outputs.drop required).getLast? ≠ some "") : trimOmitted required outputs = outputs := by
  have stays : (outputs.drop required).reverse.dropWhile (· = "") =
      (outputs.drop required).reverse := by
    cases hrev : (outputs.drop required).reverse with
    | nil => rfl
    | cons x rest =>
        have hx : x ≠ "" := by
          rintro rfl
          rw [List.getLast?_eq_head?_reverse, hrev] at last
          exact last rfl
        exact List.dropWhile_cons_of_neg (by simpa using hx)
  unfold trimOmitted
  rw [stays, List.reverse_reverse, List.take_append_drop]

/-- A needed node has no dead optional outputs. -/
theorem Node.dropDeadOutputs_of_needed {n : Node} {live : List String} (h : n.Needed version live) :
    n.dropDeadOutputs version live = n := by
  unfold dropDeadOutputs
  split
  · rfl
  · rename_i required hrequired
    obtain ⟨operator, hread, optional⟩ := Option.bind_eq_some_iff.1 hrequired
    have read : Operator.ofNode version n = .ok operator := by
      cases hr : Operator.ofNode version n with
      | error e =>
          rw [hr] at hread
          cases hread
      | ok operator' =>
          rw [hr] at hread
          cases hread
          rfl
    obtain ⟨used, last⟩ := h.optional operator required read optional
    have kept : ((n.outputs.drop required).map fun o => if live.contains o then o else "") =
        n.outputs.drop required := by
      refine (List.map_congr_left fun x hx => ?_).trans (List.map_id' _)
      rcases used x hx with rfl | hlive
      · exact ite_self _
      · exact if_pos (by simpa using hlive)
    have outputs : trimOmitted required (n.outputs.take required ++
        (n.outputs.drop required).map fun o => if live.contains o then o else "") = n.outputs := by
      rw [kept, List.take_append_drop, trimOmitted_of_getLast? last]
    have replaced := congrArg (fun names => ({ n with outputs := names } : Node)) outputs
    exact replaced.trans (by cases n; rfl)

namespace Graph

variable {g : Graph}

/-! ## The flags of the nodes -/

/-- What is flagged, and how many nodes are not. -/
theorem liveFlags_eq (names : List String) (ns : List Node) :
    (liveFlags names ns).2 = (liveNodes names ns).2 ∧
      ((ns.zip (liveFlags names ns).1).filter Prod.snd).map Prod.fst = (liveNodes names ns).1 ∧
      (liveFlags names ns).1.count false + (liveNodes names ns).1.length = ns.length := by
  induction ns with
  | nil => exact ⟨rfl, rfl, rfl⟩
  | cons n rest ih =>
      obtain ⟨live, kept, count⟩ := ih
      unfold liveFlags liveNodes
      dsimp only
      rw [live]
      split
      · refine ⟨rfl, ?_, ?_⟩
        · rw [List.zip_cons_cons, List.filter_cons_of_pos rfl, List.map_cons, kept]
        · rw [List.count_cons_of_ne (by decide), List.length_cons, List.length_cons, ← count]
          rfl
      · refine ⟨rfl, ?_, ?_⟩
        · rw [List.zip_cons_cons, List.filter_cons_of_neg Bool.false_ne_true, kept]
        · rw [List.count_cons_self, List.length_cons, ← count]
          exact Nat.add_right_comm _ _ _

/-- Counting the removed nodes does not change what is left. -/
theorem removeDeadCode_eq (version : Option Int64) (g : Graph) :
    (g.removeDeadCode version).1 = g.eliminateDeadCode version ∧
      (g.removeDeadCode version).2 + (g.eliminateDeadCode version).nodes.length =
        g.nodes.length := by
  obtain ⟨live, kept, count⟩ := liveFlags_eq g.outputNames g.nodes
  unfold removeDeadCode eliminateDeadCode
  dsimp only
  rw [show (g.outputs.map ValueInfo.name) = g.outputNames from rfl, live, kept, List.length_map]
  exact ⟨rfl, count⟩

/-! ## Values that reach an output -/

/-- Whether a value is an output of the graph, or is read, also in nested graphs, by a node with an
output of which this holds. -/
inductive ReachesOutput (g : Graph) : String → Prop where
  | output {x : String} (output : x ∈ g.outputNames) : ReachesOutput g x
  | read {n : Node} {x y : String} (node : n ∈ g.nodes) (read : x ∈ n.reads)
      (made : y ∈ n.presentOutputs) (reaches : ReachesOutput g y) : ReachesOutput g x

/-- Whether a node has an output that reaches an output of the graph. -/
def Contributes (g : Graph) (n : Node) : Prop := ∃ y ∈ n.presentOutputs, g.ReachesOutput y

theorem reachesOutput_of_mem_liveNodes {ns : List Node} (nodes : ∀ n ∈ ns, n ∈ g.nodes) {x : String}
    (hx : x ∈ (liveNodes g.outputNames ns).2) : g.ReachesOutput x := by
  induction ns generalizing x with
  | nil => exact .output hx
  | cons n rest ih =>
      have later := fun {y} => @ih (fun m hm => nodes m (List.mem_cons_of_mem n hm)) y
      unfold liveNodes at hx
      dsimp only at hx
      split at hx
      · rename_i hproduces
        obtain ⟨y, hout, hy⟩ := Node.produces_iff.1 hproduces
        rcases List.mem_append.1 hx with hx | hx
        · exact .read (nodes n List.mem_cons_self) hx hout (later hy)
        · exact later hx
      · exact later hx

/-- The live names of sorted nodes are the values that reach an output. -/
theorem mem_liveNames_iff (sorted : Node.Sorted g.nodes) {x : String} :
    x ∈ g.liveNames ↔ g.ReachesOutput x := by
  constructor
  · exact reachesOutput_of_mem_liveNodes fun _ hn => hn
  · intro reaches
    induction reaches with
    | output output => exact mem_liveNodes.2 (Or.inl output)
    | read node read made _ ih =>
        -- the node produces a live name, so it is kept, and what it reads is live
        exact mem_liveNodes.2 (Or.inr ⟨_, mem_produced_liveNodes sorted ih node made, read⟩)

theorem produces_liveNames_iff (sorted : Node.Sorted g.nodes) {n : Node} :
    n.produces g.liveNames = true ↔ g.Contributes n := by
  rw [Node.produces_iff]
  exact exists_congr fun y => and_congr_right fun _ => mem_liveNames_iff sorted

/-! ## A second run -/

/-- The same values reach an output when the dead code is gone. -/
theorem reachesOutput_eliminateDeadCode_iff (sorted : Node.Sorted g.nodes) {x : String} :
    (g.eliminateDeadCode version).ReachesOutput x ↔ g.ReachesOutput x := by
  have trims : ∀ n : Node, n.Trims g.liveNames (n.dropDeadOutputs version g.liveNames) :=
    Node.trims_dropDeadOutputs version g.liveNames
  constructor
  · intro reaches
    induction reaches with
    | output output => exact .output output
    | read node read made _ ih =>
        rw [nodes_eliminateDeadCode sorted] at node
        obtain ⟨n, hn, rfl⟩ := List.mem_map.1 node
        rw [(trims n).reads] at read
        exact .read (List.mem_filter.1 hn).1 read ((trims n).sublist.subset made) ih
  · intro reaches
    induction reaches with
    | output output => exact .output output
    | @read n x y node read made reaches ih =>
        have live : y ∈ g.liveNames := (mem_liveNames_iff sorted).2 reaches
        have kept : n.dropDeadOutputs version g.liveNames ∈ (g.eliminateDeadCode version).nodes := by
          rw [nodes_eliminateDeadCode sorted]
          exact List.mem_map.2
            ⟨n, List.mem_filter.2 ⟨node, Node.produces_iff.2 ⟨y, made, live⟩⟩, rfl⟩
        exact .read kept ((trims n).reads ▸ read) ((trims n).keeps y made live) ih

/-- A second run changes nothing. -/
theorem eliminateDeadCode_twice (sorted : Node.Sorted g.nodes) :
    (g.eliminateDeadCode version).eliminateDeadCode version = g.eliminateDeadCode version := by
  have sorted' := sorted_eliminateDeadCode sorted version
  have needed : ∀ m ∈ (g.eliminateDeadCode version).nodes,
      m.Needed version (g.eliminateDeadCode version).liveNames := by
    intro m hm
    rw [nodes_eliminateDeadCode sorted] at hm
    obtain ⟨n, hn, rfl⟩ := List.mem_map.1 hm
    refine (Node.needed_dropDeadOutputs (List.mem_filter.1 hn).2).mono fun x hx => ?_
    rw [mem_liveNames_iff sorted', reachesOutput_eliminateDeadCode_iff sorted]
    exact (mem_liveNames_iff sorted).1 hx
  have all : (g.eliminateDeadCode version).nodes.filter
        (·.produces (g.eliminateDeadCode version).liveNames) = (g.eliminateDeadCode version).nodes :=
    List.filter_eq_self.2 fun m hm => Node.produces_iff.2 (needed m hm).used
  have nodes : ((g.eliminateDeadCode version).eliminateDeadCode version).nodes =
      (g.eliminateDeadCode version).nodes := by
    rw [nodes_eliminateDeadCode sorted', all]
    exact (List.map_congr_left fun m hm => Node.dropDeadOutputs_of_needed (needed m hm)).trans
      (List.map_id' _)
  exact congrArg (fun ns => ({ g.eliminateDeadCode version with nodes := ns } : Graph)) nodes

/-! ## Exactness -/

open scoped Classical in
/-- Of a graph in topological order, the nodes that are left are those that contribute to an output,
in their order, without the optional outputs that reach none.  The others are counted, and nothing is
left to remove. -/
theorem removeDeadCode_exact (version : Option Int64) (sorted : Node.Sorted g.nodes) :
    (∃ live : List String, (∀ x, x ∈ live ↔ g.ReachesOutput x) ∧
      (g.removeDeadCode version).1 =
        { g with
          nodes := (g.nodes.filter fun n => g.Contributes n).map
            (Node.dropDeadOutputs version live) }) ∧
      (g.removeDeadCode version).2 = (g.nodes.filter fun n => ¬g.Contributes n).length ∧
      (g.removeDeadCode version).1.removeDeadCode version = ((g.removeDeadCode version).1, 0) := by
  obtain ⟨left, count⟩ := removeDeadCode_eq version g
  have contributes : (g.nodes.filter fun n => g.Contributes n) =
      g.nodes.filter (·.produces g.liveNames) := by
    refine List.filter_congr fun n _ => ?_
    rw [Bool.eq_iff_iff, decide_eq_true_iff]
    exact (produces_liveNames_iff sorted).symm
  have nodes : (g.eliminateDeadCode version).nodes =
      (g.nodes.filter fun n => g.Contributes n).map
        (Node.dropDeadOutputs version g.liveNames) := by
    rw [nodes_eliminateDeadCode sorted, contributes]
  refine ⟨⟨g.liveNames, fun x => mem_liveNames_iff sorted, ?_⟩, ?_, ?_⟩
  · rw [left]
    exact congrArg (fun ns => ({ g with nodes := ns } : Graph)) nodes
  · have parts := List.length_eq_length_filter_add (l := g.nodes) fun n => decide (g.Contributes n)
    rw [nodes, List.length_map] at count
    simp only [decide_not]
    omega
  · rw [left]
    obtain ⟨left', count'⟩ := removeDeadCode_eq version (g.eliminateDeadCode version)
    rw [eliminateDeadCode_twice sorted] at left' count'
    exact Prod.ext left' (by omega)

/-- A graph with a value that is read by a dead node only, and with a node of which one output is read
two graphs deeper. -/
def deadChain : Graph :=
  { partlyUsed with
    nodes := partlyUsed.nodes ++ [{ opType := "Neg", inputs := ["dead"], outputs := ["unread"] }] }

/-- Both dead nodes are removed at once, though the first one is read. -/
theorem removeDeadCode_deadChain :
    Node.Sorted deadChain.nodes ∧ (deadChain.removeDeadCode none).2 = 2 ∧
      (deadChain.removeDeadCode none).1.nodes.map Node.outputs = [["kept"], ["y"]] ∧
      deadChain.ReachesOutput "kept" ∧
      (deadChain.removeDeadCode none).1.removeDeadCode none =
        ((deadChain.removeDeadCode none).1, 0) := by
  have sorted : Node.Sorted deadChain.nodes := Node.isSorted_iff.1 (by cbv)
  obtain ⟨-, -, again⟩ := removeDeadCode_exact none sorted
  have kept : "kept" ∈ deadChain.liveNames := by
    decide +kernel
  exact ⟨sorted, by cbv, by cbv, (mem_liveNames_iff sorted).1 kept, again⟩

end Graph
end TensorGraph
