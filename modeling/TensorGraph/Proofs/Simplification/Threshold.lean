import TensorGraph.Facts.Propagation
import TensorGraph.Proofs.Simplification.Fold

/-!
# Folding within a limit

Input:

* a graph, and the largest number of bytes that an output of a node may have.

Algorithm:

* a node is replaced by the outputs that it computes if all of them are within the limit, also those
  that have no name;
* outputs that are known from facts are not compared with the limit, and neither are the
  initializers of a branch that takes the place of its node.

Main results:

* `Graph.foldConstants_within`: where each initializer comes from, and which nodes are kept;
* `Graph.byteSize_le_of_mem_foldConstants`: as long as the outputs that are known from facts are
  within the limit, so are all constants that are made for outputs of nodes;
* `Graph.mem_nodes_foldConstants`: a node that computes a larger tensor stays as it is;
* `Graph.foldConstants_measuring_above_limit`: outputs that are known from facts may be larger.
-/

namespace TensorGraph

/-! ## Single nodes -/

namespace FoldContext

variable {c : FoldContext} {constants : Scope Tensor} {n : Node} {f : Folding} {limit : Nat}

/-- Outputs that become constants are within the limit. -/
theorem byteSize_le_of_checkOutputs {ts : List Tensor} (hlimit : c.limit = some limit)
    (h : c.checkOutputs n ts = .ok f) : ∀ t ∈ ts, t.byteSize ≤ limit := by
  unfold checkOutputs at h
  rw [hlimit] at h
  dsimp only [Option.bind_some] at h
  split at h
  · cases h
  · split at h
    · cases h
    · rename_i hnone
      intro t ht
      have small := List.find?_eq_none.1 (Option.map_eq_none_iff.1 hnone) _ (List.mem_map_of_mem ht)
      exact Nat.le_of_not_lt fun hlt => small (decide_eq_true hlt)

/-- Whether a node computes some tensors from constants. -/
def Computes (c : FoldContext) (constants : Scope Tensor) (n : Node) (ts : List Tensor) : Prop :=
  ∃ operator, Operator.ofNode c.version n = .ok operator ∧
    operator.runNode c.version noChance n (c.captured constants n) (c.arguments constants n) = .ok ts

/-- What a node may be replaced by if what it computes may have a given number of bytes. -/
inductive Allows (c : FoldContext) (limit : Nat) (n : Node) : Folding → Prop where
  | computed {constants : Scope Tensor} {ts : List Tensor} {f : Folding}
      (run : c.Computes constants n ts) (small : ∀ t ∈ ts, t.byteSize ≤ limit)
      (outputs : c.checkOutputs n ts = .ok f) : Allows c limit n f
  /-- The facts tell all outputs, of any size. -/
  | known {f : Folding} (outputs : c.inferred? n = some f) : Allows c limit n f
  /-- A branch that is known to run brings its own initializers. -/
  | taken {condition : Bool} {f : Folding} (conditional : n.opType = "If")
      (branch : n.inlineBranch? condition = some f) : Allows c limit n f

/-- Folding a node replaces it only by what is allowed. -/
theorem allows_of_fold (hlimit : c.limit = some limit) (h : c.fold constants n = .ok (some f)) :
    c.Allows limit n f := by
  rcases fold_eq_ok h with ⟨condition, hop, -, -, hinline⟩ | ⟨-, heval⟩ | hinferred
  · exact .taken hop hinline
  · obtain ⟨operator, ts, hoperator, -, -, hrun, hf⟩ := evaluate_eq_ok heval
    exact .computed ⟨operator, hoperator, hrun⟩ (byteSize_le_of_checkOutputs hlimit hf) hf
  · exact .known hinferred

/-- Constants for outputs that were computed are among these outputs. -/
theorem value_mem_of_checkOutputs {ts : List Tensor} (h : c.checkOutputs n ts = .ok f) :
    ∀ v ∈ f.values, v.value ∈ ts := by
  obtain ⟨-, rfl⟩ := checkOutputs_eq_ok h
  intro v hv
  obtain ⟨p, hp, rfl⟩ := List.mem_map.1 hv
  exact (List.of_mem_zip (show (p.1, p.2) ∈ _ from (List.mem_filter.1 hp).1)).2

end FoldContext

/-! ## Whole graphs -/

namespace Graph

variable {g g' : Graph} {c : FoldContext} {limit : Nat} {path : String}

/-- Whether a graph comes from another one by replacing nodes as it is allowed. -/
structure FoldsWithin (c : FoldContext) (limit : Nat) (g h : Graph) : Prop where
  nodes : ∀ n ∈ g.nodes, n ∈ h.nodes ∨ ∃ f, c.Allows limit n f
  initializers : ∀ i ∈ h.initializers,
    i ∈ g.initializers ∨ ∃ n ∈ g.nodes, ∃ f, c.Allows limit n f ∧ i ∈ f.values

theorem FoldsWithin.refl (g : Graph) : FoldsWithin c limit g g :=
  ⟨fun _ hn => Or.inl hn, fun _ hi => Or.inl hi⟩

/-- Nodes that no folding replaces stay, and the others are replaced as it is allowed. -/
theorem applyFoldings_within {foldings : List (Nat × Folding)}
    (allowed : ∀ p ∈ foldings, ∃ n, g.nodes[p.1]? = some n ∧ c.Allows limit n p.2) :
    FoldsWithin c limit g (g.applyFoldings foldings) := by
  refine applyFoldings_induct (Q := FoldsWithin c limit g) (.refl g)
    fun h done rest n i f hnodes hn hf q => ?_
  obtain ⟨n', hn', allows⟩ := allowed _ hf
  cases hn.symm.trans hn'
  refine ⟨fun m hm => ?_, fun v hv => ?_⟩
  · rcases q.nodes m hm with hm | hm
    · rw [hnodes, List.mem_append, List.mem_cons] at hm
      rw [mem_nodes_expand, List.mem_append]
      rcases hm with hm | rfl | hm
      · exact Or.inl (Or.inr (Or.inl hm))
      · exact Or.inr ⟨f, allows⟩
      · exact Or.inl (Or.inr (Or.inr hm))
    · exact Or.inr hm
  · rcases mem_addInitializers hv with hv | hv
    · exact q.initializers v hv
    · exact Or.inr ⟨n, List.mem_of_getElem? hn, f, allows, hv⟩

/-- Folding keeps a node, or replaces it as it is allowed, and adds only initializers that come from
there. -/
theorem foldConstants_within (hlimit : c.limit = some limit)
    (h : (g.foldConstants c path).2 = .ok g') : FoldsWithin c limit g g' := by
  rcases foldConstants_eq_ok h with rfl | ⟨foldings, found, sorted⟩
  · exact .refl g'
  · have allowed : ∀ p ∈ foldings, ∃ n, g.nodes[p.1]? = some n ∧ c.Allows limit n p.2 := by
      intro p hp
      obtain ⟨n, hn, constants, hfold⟩ := found p hp
      exact ⟨n, hn, FoldContext.allows_of_fold hlimit hfold⟩
    obtain ⟨nodes, initializers⟩ := applyFoldings_within allowed
    obtain ⟨ns, rfl, perm⟩ := sortTopologically_perm sorted
    exact ⟨fun n hn => (nodes n hn).imp_left perm.mem_iff.2, initializers⟩

/-- Each initializer after folding is an old one, comes from a branch, or is within the limit, if
the limit holds of what is known from facts. -/
theorem byteSize_le_of_mem_foldConstants (hlimit : c.limit = some limit)
    (known : ∀ n ∈ g.nodes, ∀ f, c.inferred? n = some f → ∀ v ∈ f.values, v.value.byteSize ≤ limit)
    (h : (g.foldConstants c path).2 = .ok g') {i : Initializer} (hi : i ∈ g'.initializers) :
    i ∈ g.initializers ∨ i.value.byteSize ≤ limit ∨
      ∃ n ∈ g.nodes, n.opType = "If" ∧ ∃ condition f, n.inlineBranch? condition = some f ∧
        i ∈ f.values := by
  rcases (foldConstants_within hlimit h).initializers i hi with hold | ⟨n, hn, f, allows, hv⟩
  · exact Or.inl hold
  · cases allows with
    | computed run small outputs =>
        exact Or.inr (Or.inl (small _ (FoldContext.value_mem_of_checkOutputs outputs i hv)))
    | known outputs => exact Or.inr (Or.inl (known n hn f outputs i hv))
    | taken conditional branch => exact Or.inr (Or.inr ⟨n, hn, conditional, _, f, branch, hv⟩)

/-- A node that computes a tensor above the limit, from whichever constants, stays as it is, unless
its outputs are known from facts or a branch takes its place. -/
theorem mem_nodes_foldConstants (hlimit : c.limit = some limit)
    (h : (g.foldConstants c path).2 = .ok g') {n : Node} (hn : n ∈ g.nodes)
    (unknown : c.inferred? n = none)
    (outside : n.opType = "If" → ∀ condition, n.inlineBranch? condition = none)
    (large : ∀ constants ts, c.Computes constants n ts → ∃ t ∈ ts, limit < t.byteSize) :
    n ∈ g'.nodes := by
  refine ((foldConstants_within hlimit h).nodes n hn).resolve_right ?_
  rintro ⟨f, allows⟩
  cases allows with
  | computed run small outputs =>
      obtain ⟨t, ht, hlt⟩ := large _ _ run
      exact Nat.not_lt.2 (small t ht) hlt
  | known outputs => cases unknown.symm.trans outputs
  | taken conditional branch => cases (outside conditional _).symm.trans branch

/-- A graph that gives the shape of its input, a matrix with two rows and three columns. -/
def measuring : Graph where
  nodes := [{ opType := "Shape", inputs := ["x"], outputs := ["y"] }]
  inputs := [{ name := "x", type := some .float32, shape := some [.fixed 2, .fixed 3] }]
  outputs := [{ name := "y" }]

/-- The facts tell the shape, so both of its numbers become constants where only one has room: the
limit does not hold of what is known from facts. -/
theorem foldConstants_measuring_above_limit :
    ∃ h, (measuring.foldConstants
        { version := some 13, facts := measuring.infer (some 13) [], outer := [], limit := some 8 }
        "main").2 = .ok h ∧ h.nodes.length = 0 ∧
      h.initializers.map (fun i => (i.name, i.value.byteSize)) = [("y", 16)] := by
  have made : (measuring.foldConstants
      { version := some 13, facts := measuring.infer (some 13) [], outer := [], limit := some 8 }
      "main").2.toOption.map
        (fun h => (h.nodes.length, h.initializers.map fun i => (i.name, i.value.byteSize))) =
      some (0, [("y", 16)]) := by
    decide +kernel
  obtain ⟨h, done, seen⟩ := exists_ok_of_toOption made
  exact ⟨h, done, congrArg Prod.fst seen, congrArg Prod.snd seen⟩

end Graph
end TensorGraph
