import TensorGraph.Proofs.Graph.Reduction
import TensorGraph.Proofs.Storage.Storable

/-!
# Regular graphs

Input:

* a graph that a simplification starts from.

A graph is regular when its control-flow nodes hold the nested graphs that they need, the nodes that
rules remove have one output and their operands, no node waits for itself, and all parts can be
stored.  Simplification
keeps this at every depth, together with names that are kept apart (`Graph.Sound`).

Results:

* a graph is sound when its names are kept apart and its nodes are regular to any depth
  (`Graph.sound_iff`);
* redirecting readers in nested graphs keeps them regular (`Graph.Regular.redirectNested`).
-/

namespace TensorGraph

/-- The operators with one output whose nodes are removed or lowered to constants. -/
def singleOutputOperators : List String :=
  ["Constant", "Identity", "Cast", "CastLike", "Reshape", "Transpose", "Expand", "Add", "Sub", "Mul",
    "Div", "Squeeze", "Unsqueeze"]

namespace Node

/-- Whether a node lists no more outputs than its operator produces. -/
def Fits (n : Node) : Prop :=
  n.isDefaultDomain → n.opType ∈ singleOutputOperators → n.outputs.length ≤ 1

/-- Whether the first operand of a sum or a product is given. -/
def HasOperand (n : Node) : Prop :=
  n.opType = "Add" ∨ n.opType = "Mul" → n.inputs.head? ≠ some ""

/-- Whether a node holds no nested graphs if it is a convolution. -/
def Flat (n : Node) : Prop := n.isDefaultDomain → n.opType = "Conv" → n.subgraphs = []

structure Regular (n : Node) : Prop where
  control : n.checkControlFlow = .ok ()
  fits : n.Fits
  operand : n.HasOperand
  flat : n.Flat
  storable : n.Storable

end Node

namespace Graph

structure Regular (g : Graph) : Prop where
  nodes : ∀ n ∈ g.nodes, n.Regular
  acyclic : Node.Acyclic g.nodes
  storable : g.Storable

/-- Whether names are kept apart, and all graphs are regular. -/
structure Sound (g : Graph) : Prop where
  separate : g.Separate
  regular : g.Everywhere Regular

end Graph

/-- Whether a node and its nested graphs are regular. -/
structure Node.DeepRegular (n : Node) : Prop where
  regular : n.Regular
  inside : ∀ p ∈ n.subgraphs, p.2.Everywhere Graph.Regular

namespace Graph

theorem everywhere_regular_iff {g : Graph} :
    g.Everywhere Regular ↔
      (∀ n ∈ g.nodes, n.DeepRegular) ∧ Node.Acyclic g.nodes ∧ g.Storable := by
  constructor
  · intro h
    exact ⟨fun n hn => ⟨h.here.nodes n hn, fun p hp => h.inside hn hp⟩, h.here.acyclic,
      h.here.storable⟩
  · rintro ⟨nodes, acyclic, storable⟩
    exact .intro ⟨fun n hn => (nodes n hn).regular, acyclic, storable⟩
      fun n hn p hp => (nodes n hn).inside p hp

theorem sound_iff {g : Graph} :
    g.Sound ↔
      g.Separate ∧ (∀ n ∈ g.nodes, n.DeepRegular) ∧ Node.Acyclic g.nodes ∧ g.Storable := by
  rw [← everywhere_regular_iff]
  exact ⟨fun h => ⟨h.separate, h.regular⟩, fun h => ⟨h.1, h.2⟩⟩

namespace Sound

variable {g : Graph}

theorem deepRegular (h : Sound g) {n : Node} (hn : n ∈ g.nodes) : n.DeepRegular :=
  (everywhere_regular_iff.1 h.regular).1 n hn

theorem acyclic (h : Sound g) : Node.Acyclic g.nodes := h.regular.here.acyclic

theorem storable (h : Sound g) : g.Storable := h.regular.here.storable

theorem nested (h : Sound g) {n : Node} (hn : n ∈ g.nodes) {p : String × Graph}
    (hp : p ∈ n.subgraphs) : Sound p.2 :=
  ⟨h.separate.nested hn hp, h.regular.inside hn hp⟩

end Sound

/-- Whether a graph is sound and in order, and was made smaller from another one. -/
structure Simplifies (g g' : Graph) : Prop where
  sound : g'.Sound
  reduces : g.Reduces g'
  sorted : Node.Sorted g'.nodes

theorem Simplifies.trans {g g' g'' : Graph} (h : Simplifies g g') (h' : Simplifies g' g'') :
    Simplifies g g'' :=
  ⟨h'.sound, h.reduces.trans h'.reduces, h'.sorted⟩

/-- Whether a graph is sound and in order, and can stand for another one.  When no names are made, it
was made smaller. -/
structure Evolves (closed : Prop) (g g' : Graph) : Prop where
  sound : g'.Sound
  refines : g.Refines g'
  sorted : Node.Sorted g'.nodes
  reduces : closed → g.Reduces g'

namespace Evolves

variable {closed : Prop} {g g' g'' : Graph}

theorem refl (sound : g.Sound) (sorted : Node.Sorted g.nodes) : Evolves closed g g :=
  ⟨sound, .refl g, sorted, fun _ => .refl g⟩

theorem trans (h : Evolves closed g g') (h' : Evolves closed g' g'') : Evolves closed g g'' :=
  ⟨h'.sound, h.refines.trans h'.refines, h'.sorted, fun hc => (h.reduces hc).trans (h'.reduces hc)⟩

theorem simplifies (h : Evolves closed g g') (hc : closed) : Simplifies g g' :=
  ⟨h.sound, h.reduces hc, h.sorted⟩

end Evolves

theorem Simplifies.evolves {closed : Prop} {g g' : Graph} (h : Simplifies g g') :
    Evolves closed g g' :=
  ⟨h.sound, h.reduces.refines, h.sorted, fun _ => h.reduces⟩

/-- A sound graph can be sorted. -/
theorem Sound.sortTopologically {g : Graph} (h : Sound g) :
    ∃ g', g.sortTopologically = .ok g' ∧ Simplifies g g' := by
  obtain ⟨ns, hg', perm, sorted, reduces⟩ :=
    exists_sortTopologically h.separate.distinct h.acyclic
  refine ⟨_, hg', sound_iff.2 ⟨h.separate.reduce reduces, ?_, ?_, ?_⟩, reduces, sorted⟩
  · exact fun n hn => h.deepRegular (perm.mem_iff.1 hn)
  · exact h.acyclic.subset fun n hn => perm.mem_iff.1 hn
  · exact ⟨h.storable.unknown, h.storable.initializers, h.storable.inputs, h.storable.outputs,
      h.storable.valueInfo⟩

end Graph

/-! ## Redirected nodes -/

namespace Node

variable {old new : String}

theorem HasOperand.redirect {n : Node} (h : n.HasOperand) (hold : old ≠ "") (hnew : new ≠ "") :
    (n.redirect old new).HasOperand := by
  intro ho heq
  have heq' : (n.inputs.map (substituteName old new)).head? = some "" := heq
  rw [List.head?_map, Option.map_eq_some_iff] at heq'
  obtain ⟨x, hx, hempty⟩ := heq'
  rw [substituteName_eq_empty_iff hold hnew] at hempty
  exact h ho (hempty ▸ hx)

/-- A node with related nested graphs holds none if the first one does not. -/
theorem Flat.of_nested {R : Graph → Graph → Prop} {n n' : Node} (h : n.Flat)
    (nested : Nested R n n') : n'.Flat := by
  intro hd ho
  have hd' : n.isDefaultDomain = n'.isDefaultDomain := by
    unfold isDefaultDomain
    rw [nested.domain]
  have all := nested.subgraphs
  rw [h (hd' ▸ hd) (nested.opType ▸ ho)] at all
  exact List.forall₂_nil_left_iff.1 all

theorem Regular.redirect {n : Node} (h : n.Regular) (hold : old ≠ "") (hnew : new ≠ "") :
    (n.redirect old new).Regular :=
  ⟨checkControlFlow_redirect h.control, h.fits, h.operand.redirect hold hnew,
    h.flat.of_nested (nested_redirect old new n), h.storable.redirect old new⟩

theorem Regular.rename {n : Node} (h : n.Regular) (hold : old ≠ "") (hnew : new ≠ "") :
    (n.rename old new).Regular := by
  refine ⟨checkControlFlow_rename h.control, fun hd ho => ?_, h.operand.redirect hold hnew,
    h.flat.of_nested (nested_rename old new n), h.storable.rename old new⟩
  rw [show (n.rename old new).outputs.length = n.outputs.length from List.length_map _]
  exact h.fits hd ho

/-- Readers may be redirected to a value of no greater rank. -/
theorem Ranks.redirect {rank : String → Nat} {ns : List Node} (h : Ranks rank ns)
    (hold : old ≠ "") (hnew : new ≠ "") (le : rank new ≤ rank old)
    (fresh : ∀ n ∈ ns, new ∉ n.innerNames) : Ranks rank (ns.map (Node.redirect old new)) := by
  intro m hm x hx y hy
  obtain ⟨n, hn, rfl⟩ := List.mem_map.1 hm
  obtain ⟨z, hz, rfl⟩ := (mem_reads_redirect hold hnew (fresh n hn)).1 hx
  have := h n hn z hz y hy
  by_cases heq : z = old
  · subst heq
    rw [substituteName_self]
    omega
  · rwa [substituteName_of_ne heq]

end Node

namespace Graph

variable {old new : String}

theorem Storable.replaceUses {g : Graph} (h : g.Storable) (old new : String) :
    (g.replaceUses old new).Storable := by
  rw [replaceUses_eq]
  exact ⟨h.unknown, h.initializers, h.inputs, h.outputs, h.valueInfo⟩

/-- A nested graph stays regular when readers in it are redirected. -/
theorem Regular.redirectNested (hold : old ≠ "") (hnew : new ≠ "") {g : Graph} (h : g.Regular)
    (hcap : old ∈ g.captures) (fresh : new ∉ g.allDefinitions) :
    (g.redirectNested old new).Regular := by
  rw [allDefinitions_eq, List.mem_append, not_or, mem_definitions] at fresh
  unfold Graph.redirectNested
  rw [if_pos (by simpa using hcap), replaceUses_eq]
  refine ⟨fun m hm => ?_, ?_, ⟨h.storable.unknown, h.storable.initializers, h.storable.inputs,
    fun v hv => ?_, h.storable.valueInfo⟩⟩
  · obtain ⟨n, hn, rfl⟩ := List.mem_map.1 hm
    exact (h.nodes n hn).redirect hold hnew
  · obtain ⟨rank, hr, zero⟩ := h.acyclic.exists_rank
    have hnew' : rank new = 0 :=
      (zero new).2 fun hp => fresh.1 (mem_definedNames.2 (Or.inr (Or.inr hp)))
    refine ⟨rank, hr.redirect hold hnew (by omega) fun n hn hi => ?_⟩
    exact fresh.2 (mem_innerNames.2 ⟨n, hn, hi⟩)
  · obtain ⟨o, ho, rfl⟩ := List.mem_map.1 hv
    exact h.storable.outputs o ho

end Graph

namespace Node

variable {old new : String} {n : Node}

theorem DeepRegular.redirect (h : n.DeepRegular) (hold : old ≠ "") (hnew : new ≠ "")
    (fresh : new ∉ n.innerNames) : (n.redirect old new).DeepRegular :=
  ⟨h.regular.redirect hold hnew,
    everywhere_redirect (fun _ => Graph.Regular.redirectNested hold hnew) h.inside fresh⟩

theorem DeepRegular.rename (h : n.DeepRegular) (hold : old ≠ "") (hnew : new ≠ "")
    (fresh : new ∉ n.innerNames) : (n.rename old new).DeepRegular :=
  ⟨h.regular.rename hold hnew,
    everywhere_redirect (fun _ => Graph.Regular.redirectNested hold hnew) h.inside fresh⟩

end Node
end TensorGraph
