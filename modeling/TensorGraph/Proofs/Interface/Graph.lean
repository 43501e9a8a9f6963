import TensorGraph.Proofs.Simplification.Expand
import TensorGraph.Proofs.Simplification.Fold

/-!
# The interface of a graph

Input:

* a graph whose inputs no node defines, at any depth (`Graph.Apart`).

Nothing else is asked of the graph.  Operators may have any number of outputs, and names may be
defined twice as long as no input is among them, so a pass is followed through graphs that other
results do not speak of.

A graph keeps the interface of another one (`Graph.KeepsInterface`) when it has the same inputs, the
same of them have initializers, and the outputs have the same names in the same order.  Folding puts
initializers, or the nodes and initializers of a branch, in place of a node, which define only names
that the node defines at some depth (`FoldContext.fold_spares`).

Results:

* the same inputs need a value from outside (`Graph.KeepsInterface.runtimeInputs`);
* what is kept by two passes is kept by both in a row (`Graph.Keeps.trans`);
* redirecting, renaming, sorting and exchanging nodes keep the interface, as long as no input is
  touched;
* folding keeps it (`Graph.Keeps.lowerConstants` and `Graph.Keeps.foldConstants`).
-/

namespace TensorGraph

/-! ## Declarations -/

/-- Whether a declaration has the name of another one and says at least as much. -/
structure ValueInfo.Completes (v w : ValueInfo) : Prop where
  name : w.name = v.name
  type : ∀ t, v.type = some t → w.type = some t
  shape : ∀ dims, v.shape = some dims → w.shape = some dims

namespace ValueInfo

theorem Completes.refl (v : ValueInfo) : v.Completes v := ⟨rfl, fun _ h => h, fun _ h => h⟩

theorem Completes.trans {u v w : ValueInfo} (h : u.Completes v) (h' : v.Completes w) :
    u.Completes w :=
  ⟨h'.name.trans h.name, fun t ht => h'.type t (h.type t ht),
    fun dims hd => h'.shape dims (h.shape dims hd)⟩

theorem all_completes_refl (vs : List ValueInfo) : List.Forall₂ Completes vs vs :=
  List.forall₂_same.2 fun v _ => .refl v

theorem all_completes_trans {us vs ws : List ValueInfo} (h : List.Forall₂ Completes us vs)
    (h' : List.Forall₂ Completes vs ws) : List.Forall₂ Completes us ws := by
  induction h generalizing ws with
  | nil => exact h'
  | cons first _ ih =>
      cases h' with
      | cons first' rest' => exact .cons (first.trans first') (ih rest')

/-- Declarations that are completed one by one have the same names. -/
theorem names_of_completes {vs ws : List ValueInfo} (h : List.Forall₂ Completes vs ws) :
    ws.map name = vs.map name := by
  induction h with
  | nil => rfl
  | cons first _ ih => rw [List.map_cons, List.map_cons, first.name, ih]

end ValueInfo

/-! ## Nodes -/

namespace Node

/-- Whether a node defines none of some names, at any depth. -/
def Spares (names : List String) (n : Node) : Prop :=
  ∀ x ∈ names, x ∉ n.presentOutputs ∧ x ∉ n.innerNames

variable {names : List String} {n m : Node} {old new : String}

theorem Spares.of_subset (h : n.Spares names)
    (outputs : ∀ x ∈ m.presentOutputs, x ∈ n.presentOutputs)
    (inner : ∀ x ∈ m.innerNames, x ∈ n.innerNames) : m.Spares names :=
  fun x hx => ⟨fun ho => (h x hx).1 (outputs x ho), fun hi => (h x hx).2 (inner x hi)⟩

theorem Spares.redirect (h : n.Spares names) : (n.redirect old new).Spares names :=
  h.of_subset (fun _ hx => hx) fun x hx => by rwa [innerNames_redirect] at hx

/-- A renamed node defines what it defined before, or the new name. -/
theorem Spares.rename (h : n.Spares names) (hnew : new ∉ names) :
    (n.rename old new).Spares names := by
  refine fun x hx => ⟨fun ho => ?_, by rw [innerNames_rename]; exact (h x hx).2⟩
  obtain ⟨hmem, hne⟩ := mem_presentOutputs.1 ho
  obtain ⟨y, hy, rfl⟩ := List.mem_map.1 hmem
  by_cases heq : y = old
  · rw [heq, substituteName_self] at hx
    exact hnew hx
  · rw [substituteName_of_ne heq] at hx hne
    exact (h y hx).1 (mem_presentOutputs.2 ⟨hy, hne⟩)

theorem spares_copying {source target : String} (h : target ∉ names) :
    (copying source target).Spares names := by
  refine fun x hx => ⟨fun ho => ?_, by simp [innerNames, subgraphs, copying]⟩
  rw [List.mem_singleton.1 (mem_presentOutputs.1 ho).1] at hx
  exact h hx

end Node

namespace Graph

/-! ## Kept interfaces -/

/-- Whether no node defines an input, at any depth. -/
def Apart (g : Graph) : Prop := ∀ n ∈ g.nodes, n.Spares g.inputNames

/-- Whether a graph is called with the same inputs as another one, and gives the same outputs. -/
structure KeepsInterface (g g' : Graph) : Prop where
  inputs : g'.inputs = g.inputs
  outputs : List.Forall₂ ValueInfo.Completes g.outputs g'.outputs
  defaults : ∀ x ∈ g.inputNames, (x ∈ g'.initializerNames ↔ x ∈ g.initializerNames)

/-- Whether a graph keeps the interface of another one, and no node defines an input. -/
structure Keeps (g g' : Graph) : Prop where
  interface : g.KeepsInterface g'
  apart : g'.Apart

/-- No node defines an input when names are unique. -/
theorem Unique.apart {g : Graph} (h : Unique g) : g.Apart := by
  intro n hn x hx
  have none := h.inputs x hx
  rw [List.mem_append, not_or] at none
  exact ⟨fun ho => none.1 (mem_produced.2 ⟨n, hn, ho⟩),
    fun hi => none.2 (mem_innerNames.2 ⟨n, hn, hi⟩)⟩

namespace KeepsInterface

variable {g g' g'' : Graph}

theorem refl (g : Graph) : g.KeepsInterface g :=
  ⟨rfl, ValueInfo.all_completes_refl _, fun _ _ => Iff.rfl⟩

theorem inputNames (h : g.KeepsInterface g') : g'.inputNames = g.inputNames :=
  congrArg (List.map ValueInfo.name) h.inputs

theorem outputNames (h : g.KeepsInterface g') : g'.outputNames = g.outputNames :=
  ValueInfo.names_of_completes h.outputs

theorem trans (h : g.KeepsInterface g') (h' : g'.KeepsInterface g'') : g.KeepsInterface g'' where
  inputs := h'.inputs.trans h.inputs
  outputs := ValueInfo.all_completes_trans h.outputs h'.outputs
  defaults x hx := (h'.defaults x (h.inputNames ▸ hx)).trans (h.defaults x hx)

/-- The same inputs need a value from outside. -/
theorem runtimeInputs (h : g.KeepsInterface g') : g'.runtimeInputs = g.runtimeInputs :=
  runtimeInputs_eq_of_defaults h.inputs h.defaults

/-- Other nodes and initializers keep the interface when the same inputs have initializers. -/
theorem of_parts {ns : List Node} {is : List Initializer}
    (defaults : ∀ x ∈ g.inputNames, (x ∈ is.map Initializer.name ↔ x ∈ g.initializerNames)) :
    g.KeepsInterface { g with nodes := ns, initializers := is } :=
  ⟨rfl, ValueInfo.all_completes_refl _, defaults⟩

theorem of_nodes (ns : List Node) : g.KeepsInterface { g with nodes := ns } :=
  ⟨rfl, ValueInfo.all_completes_refl _, fun _ _ => Iff.rfl⟩

end KeepsInterface

namespace Keeps

variable {g g' g'' : Graph} {old new : String}

theorem refl (apart : g.Apart) : g.Keeps g := ⟨.refl g, apart⟩

theorem trans (h : g.Keeps g') (h' : g'.Keeps g'') : g.Keeps g'' :=
  ⟨h.interface.trans h'.interface, h'.apart⟩

theorem spares (h : g.Keeps g') {n : Node} (hn : n ∈ g'.nodes) : n.Spares g.inputNames :=
  h.interface.inputNames ▸ h.apart n hn

/-- Other nodes and initializers keep the interface when they define no input that was not defined
before. -/
theorem of_parts {ns : List Node} {is : List Initializer} (nodes : ∀ n ∈ ns, n.Spares g.inputNames)
    (defaults : ∀ x ∈ g.inputNames, (x ∈ is.map Initializer.name ↔ x ∈ g.initializerNames)) :
    g.Keeps { g with nodes := ns, initializers := is } :=
  ⟨.of_parts defaults, nodes⟩

theorem of_nodes {ns : List Node} (nodes : ∀ n ∈ ns, n.Spares g.inputNames) :
    g.Keeps { g with nodes := ns } :=
  ⟨.of_nodes ns, nodes⟩

/-- Nodes and initializers that define no input may be put in. -/
theorem insert {ns : List Node} {values : List Initializer}
    (nodes : ∀ n ∈ ns, n.Spares g.inputNames) (new : ∀ v ∈ values, v.name ∉ g.inputNames) :
    g.Keeps { g with nodes := ns, initializers := addInitializers g.initializers values } := by
  refine of_parts nodes fun x hx => ?_
  rw [mem_names_addInitializers]
  refine or_iff_left fun hv => ?_
  obtain ⟨v, hmem, rfl⟩ := List.mem_map.1 hv
  exact new v hmem hx

theorem replaceUses (apart : g.Apart) (old new : String) : g.Keeps (g.replaceUses old new) := by
  rw [replaceUses_eq]
  refine of_nodes fun m hm => ?_
  obtain ⟨n, hn, rfl⟩ := List.mem_map.1 hm
  exact (apart n hn).redirect

/-- Renaming keeps the interface when neither name is an input's and no output is renamed. -/
theorem renameValue (apart : g.Apart) (hold : old ∉ g.inputNames) (hnew : new ∉ g.inputNames)
    (outputs : old ∉ g.outputNames) : g.Keeps (g.renameValue old new) := by
  have same : ∀ vs : List ValueInfo, old ∉ vs.map ValueInfo.name →
      vs.map (renameInfo old new) = vs := by
    intro vs hvs
    conv_rhs => rw [← List.map_id vs]
    refine List.map_congr_left fun v hv => renameInfo_of_ne fun heq => hvs ?_
    exact heq ▸ List.mem_map_of_mem hv
  rw [renameValue_eq, same g.inputs hold, same g.outputs outputs]
  refine ⟨⟨rfl, ValueInfo.all_completes_refl _, fun x hx => ?_⟩, fun m hm => ?_⟩
  · have ne : x ≠ old ∧ x ≠ new := ⟨fun h => hold (h ▸ hx), fun h => hnew (h ▸ hx)⟩
    have renamed : ∀ y, substituteName old new y = x ↔ y = x := by
      intro y
      by_cases hy : y = old
      · rw [hy, substituteName_self]
        exact iff_of_false (fun h => ne.2 h.symm) fun h => ne.1 h.symm
      · rw [substituteName_of_ne hy]
    simp only [initializerNames, List.map_map, List.mem_map, Function.comp_apply, renamed]
  · obtain ⟨n, hn, rfl⟩ := List.mem_map.1 hm
    exact (apart n hn).rename hnew

theorem sortTopologically (apart : g.Apart) (h : g.sortTopologically = .ok g') : g.Keeps g' := by
  obtain ⟨ns, rfl, perm⟩ := sortTopologically_perm h
  exact of_nodes fun n hn => apart n (perm.mem_iff.1 hn)

end Keeps

end Graph

/-! ## Folding -/

/-! ## Branches -/

namespace Inlining

variable {names : List String}

/-- Whether a branch and the copies of its outputs define none of some names. -/
structure Spares (names : List String) (s : Inlining) : Prop where
  nodes : ∀ m ∈ s.branch.nodes ++ s.copies, m.Spares names
  values : ∀ v ∈ s.branch.initializers, v.name ∉ names

/-- Assigning a name defines no other name. -/
theorem Spares.assign {s : Inlining} (h : s.Spares names) {output : String}
    (hout : output ≠ "" → output ∉ names) (i : Nat) : (s.assign output i).Spares names := by
  unfold Inlining.assign
  split
  · exact h
  · rename_i named
    have free := hout named
    dsimp only
    split
    · rw [Graph.renameValue_eq]
      refine ⟨fun m hm => ?_, fun v hv => ?_⟩
      · rcases List.mem_append.1 hm with hm | hm
        · obtain ⟨k, hk, rfl⟩ := List.mem_map.1 hm
          exact (h.nodes k (List.mem_append_left _ hk)).rename free
        · exact h.nodes m (List.mem_append_right _ hm)
      · obtain ⟨w, hw, rfl⟩ := List.mem_map.1 hv
        dsimp only
        unfold substituteName
        split
        · exact free
        · exact h.values w hw
    · refine ⟨fun m hm => ?_, h.values⟩
      rw [← List.append_assoc] at hm
      rcases List.mem_append.1 hm with hm | hm
      · exact h.nodes m hm
      · rw [List.mem_singleton.1 hm]
        exact Node.spares_copying free

/-- A branch that is taken out of its node defines what the node defines. -/
theorem spares_ofBranch {n : Node} {place : String} {b : Graph} (h : n.Spares names)
    (hp : (place, b) ∈ n.subgraphs) : (ofBranch n b).Spares names := by
  have inside : ∀ x ∈ names, x ∉ b.made := by
    intro x hx hmem
    have pos := List.count_pos_iff.2 hmem
    exact (h x hx).2 (List.count_pos_iff.1 (Nat.lt_of_lt_of_le pos (Graph.count_made_nested_le hp x)))
  have start : Spares names { branch := b } := by
    refine ⟨fun m hm x hx => ?_, fun v hv hx => ?_⟩
    · have hm : m ∈ b.nodes := by simpa using hm
      have none := inside x hx
      rw [Graph.mem_made, not_or, not_or] at none
      exact ⟨fun ho => none.2.1 (Graph.mem_produced.2 ⟨m, hm, ho⟩),
        fun hi => none.2.2 (Graph.mem_innerNames.2 ⟨m, hm, hi⟩)⟩
    · exact inside _ hx (Graph.mem_made.2 (Or.inl (List.mem_map_of_mem hv)))
  unfold ofBranch
  refine List.foldlRecOn _ _ start fun s hs p hp => ?_
  have hmem : p.1 ∈ n.outputs := List.fst_mem_of_mem_zipIdx hp
  exact hs.assign (fun hne hx => (h p.1 hx).1 (Node.mem_presentOutputs.2 ⟨hmem, hne⟩)) p.2

end Inlining

/-! ## Foldings -/

/-- Whether what takes the place of a node defines none of some names. -/
structure Folding.Spares (names : List String) (f : Folding) : Prop where
  nodes : ∀ m ∈ f.nodes, m.Spares names
  values : ∀ v ∈ f.values, v.name ∉ names

/-- Constants for the outputs of a node define what the node defines. -/
theorem Node.Spares.constants {names : List String} {n : Node} (h : n.Spares names) {f : Folding}
    (hnodes : f.nodes = []) (outputs : f.values.map Initializer.name = n.presentOutputs) :
    f.Spares names := by
  refine ⟨by simp [hnodes], fun v hv hx => (h _ hx).1 ?_⟩
  rw [← outputs]
  exact List.mem_map_of_mem hv

/-- Whatever a node is folded to defines what the node defines. -/
theorem FoldContext.fold_spares {c : FoldContext} {constants : Scope Tensor} {n : Node} {f : Folding}
    {names : List String} (h : n.Spares names) (hfold : c.fold constants n = .ok (some f)) :
    f.Spares names := by
  rcases fold_eq_ok hfold with ⟨condition, -, -, -, hinline⟩ | ⟨-, heval⟩ | hinferred
  · obtain ⟨b, hb, -, -, rfl⟩ := Graph.inlineBranch?_eq_some hinline
    have spares := Inlining.spares_ofBranch h (Node.mem_subgraphs_of_graph? hb)
    exact ⟨spares.nodes, spares.values⟩
  · obtain ⟨hnodes, outputs⟩ := evaluate_names heval
    exact h.constants hnodes outputs
  · obtain ⟨values, rfl, outputs, -⟩ := inferred?_eq_some hinferred
    exact h.constants rfl outputs

/-! ## Whole graphs -/

namespace Graph

variable {g g' : Graph}

/-- Constants that are written as nodes are no inputs. -/
theorem Keeps.lowerConstants (apart : g.Apart) (version : Option Int64) :
    g.Keeps (g.lowerConstants version) := by
  rw [lowerConstants_eq]
  refine .insert (fun n hn => apart n (List.mem_filter.1 hn).1) fun i hi hx => ?_
  obtain ⟨n, hn, hc⟩ := mem_nodeConstants.1 hi
  obtain ⟨-, -, hhead, hne, -⟩ := Node.constant?_eq_some hc
  exact (apart n hn _ hx).1 (Node.mem_presentOutputs.2 ⟨List.mem_of_mem_head? hhead, hne⟩)

/-- Replacing nodes by foldings of them keeps the interface. -/
theorem Keeps.applyFoldings (apart : g.Apart) {foldings : List (Nat × Folding)}
    (spare : ∀ p ∈ foldings, p.2.Spares g.inputNames) : g.Keeps (g.applyFoldings foldings) := by
  refine applyFoldings_induct (Q := g.Keeps) (.refl apart) fun h done rest n i f hnodes _ hf q => ?_
  obtain ⟨nodes, values⟩ := spare _ hf
  rw [← q.interface.inputNames] at nodes values
  refine q.trans (.insert (fun m hm => ?_) values)
  have old : m ∈ done ++ rest → m ∈ h.nodes := fun hm => mem_of_expand hnodes hm
  simp only [List.mem_append] at hm old
  rcases hm with (hm | hm) | hm
  · exact q.apart m (old (Or.inl hm))
  · exact nodes m hm
  · exact q.apart m (old (Or.inr hm))

/-- Folding keeps the interface. -/
theorem Keeps.foldConstants (apart : g.Apart) {c : FoldContext} {path : String}
    (h : (g.foldConstants c path).2 = .ok g') : g.Keeps g' := by
  rcases foldConstants_eq_ok h with rfl | ⟨foldings, found, sorted⟩
  · exact .refl apart
  · have spare : ∀ p ∈ foldings, p.2.Spares g.inputNames := by
      intro p hp
      obtain ⟨n, hn, constants, hfold⟩ := found p hp
      exact FoldContext.fold_spares (apart n (List.mem_of_getElem? hn)) hfold
    have folded := Keeps.applyFoldings apart spare
    exact folded.trans (.sortTopologically folded.apart sorted)

end Graph

end TensorGraph
