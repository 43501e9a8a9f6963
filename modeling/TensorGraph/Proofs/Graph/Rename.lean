import Mathlib.Data.List.Nodup
import TensorGraph.Proofs.Graph.Edit
import TensorGraph.Proofs.Graph.Reduction

/-!
# Graphs under other names

Input:

* a graph, and a map of names.

Algorithm:

* `Graph.mapNames` maps each name that defines or reads a value, at every depth, and nothing else;
* maps that agree on the names that occur in a graph (`Graph.mentions`) map it alike, and maps one
  after the other are one map.

Main results:

* `Graph.renameValue_eq_mapNames`: in a graph where nested graphs do not define `old` again, renaming
  `old` to `new` is such a map;
* `Graph.renameValue_renameValue`: it can be taken back when `new` did not occur before;
* `Graph.renameValue_valid`: it keeps a graph valid.
-/

namespace TensorGraph

theorem substituteName_inj {old new x y : String} (hx : x ≠ new) (hy : y ≠ new)
    (h : substituteName old new x = substituteName old new y) : x = y := by
  by_cases hxo : x = old
  · by_cases hyo : y = old
    · rw [hxo, hyo]
    · rw [hxo, substituteName_self, substituteName_of_ne hyo] at h
      exact absurd h.symm hy
  · rw [substituteName_of_ne hxo] at h
    by_cases hyo : y = old
    · rw [hyo, substituteName_self] at h
      exact absurd h hx
    · rwa [substituteName_of_ne hyo] at h

/-- A name that is not new is found again. -/
theorem substituteName_substituteName {old new x : String} (hx : x ≠ new) :
    substituteName new old (substituteName old new x) = x := by
  by_cases h : x = old
  · rw [h, substituteName_self, substituteName_self]
  · rw [substituteName_of_ne h, substituteName_of_ne hx]

/-! ## Changing each nested graph -/

/-- Change the graphs in a value. -/
def AttributeValue.mapGraphs (f : Graph → Graph) : AttributeValue → AttributeValue
  | .graph g => .graph (f g)
  | .graphs gs => .graphs (gs.map f)
  | v => v

/-- Change the graphs in an attribute. -/
def Attribute.mapGraphs (f : Graph → Graph) (a : Attribute) : Attribute :=
  { a with value := a.value.mapGraphs f }

namespace Attribute

variable {f f' : Graph → Graph} {a : Attribute}

theorem mapGraphs_congr (same : ∀ g ∈ a.value.graphList, f g = f' g) :
    a.mapGraphs f = a.mapGraphs f' := by
  obtain ⟨_, v⟩ := a
  unfold mapGraphs AttributeValue.mapGraphs
  cases v with
  | graph g => simp only [same g List.mem_cons_self]
  | graphs gs => simp only [List.map_congr_left (f := f) (g := f') (l := gs) same]
  | _ => rfl

theorem mapGraphs_id (a : Attribute) : a.mapGraphs id = a := by
  obtain ⟨_, v⟩ := a
  unfold mapGraphs AttributeValue.mapGraphs
  cases v <;> simp

theorem mapGraphs_mapGraphs (f f' : Graph → Graph) (a : Attribute) :
    (a.mapGraphs f).mapGraphs f' = a.mapGraphs (f' ∘ f) := by
  obtain ⟨_, v⟩ := a
  unfold mapGraphs AttributeValue.mapGraphs
  cases v <;> simp

/-- What differs from an attribute in its graphs only, each of which is changed. -/
theorem Revises.eq_mapGraphs {a' : Attribute} (h : a.Revises (fun g g' => g' = f g) a') :
    a' = a.mapGraphs f := by
  obtain ⟨v, rfl, nested, plain⟩ := h
  unfold mapGraphs
  congr 1
  cases hv : a.value with
  | graph g =>
      rw [hv] at nested
      cases nested with
      | graph h => exact congrArg AttributeValue.graph h
      | plain none _ => cases none
  | graphs gs =>
      rw [hv] at nested
      cases nested with
      | graphs all => exact congrArg AttributeValue.graphs (eq_map_of_forall₂ all)
      | plain none _ =>
          cases (none : gs = [])
          rw [plain (by rw [hv]; rfl), hv]
          rfl
  | _ =>
      rw [plain (by rw [hv]; rfl), hv]
      rfl

end Attribute

namespace Node

theorem attributes_mapSubgraphs (n : Node) (f : Graph → Graph) :
    (n.mapSubgraphs fun g _ => f g).attributes = n.attributes.map (Attribute.mapGraphs f) := by
  obtain ⟨attributes, heq, all⟩ := revises_mapSubgraphs n f
  rw [heq]
  exact eq_map_of_forall₂ (all.imp fun _ _ => Attribute.Revises.eq_mapGraphs)

end Node

/-! ## Graphs under other names -/

/-- A graph with other names for all values that it and its nested graphs define and read.  What is
declared of values stays. -/
def Graph.mapNames (σ : String → String) (g : Graph) : Graph :=
  { g with
    nodes := g.nodes.map fun n =>
      { n with
        inputs := n.inputs.map σ
        outputs := n.outputs.map σ
        attributes := (n.mapSubgraphs fun g' _ => g'.mapNames σ).attributes }
    initializers := g.initializers.map fun i => { i with name := σ i.name }
    inputs := g.inputs.map fun v => { v with name := σ v.name }
    outputs := g.outputs.map fun v => { v with name := σ v.name } }
termination_by sizeOf g
decreasing_by exact Nat.lt_trans ‹_› (sizeOf_nodes ‹_›)

/-- A node with other names for all values. -/
def Node.mapNames (σ : String → String) (n : Node) : Node :=
  { n with
    inputs := n.inputs.map σ
    outputs := n.outputs.map σ
    attributes := n.attributes.map (Attribute.mapGraphs (Graph.mapNames σ)) }

/-- The names that occur in a graph and its nested graphs, with the empty one where a node omits a
value. -/
def Graph.mentions (g : Graph) : List String :=
  g.inputNames ++ g.initializerNames ++ g.outputNames ++ g.valueInfo.map ValueInfo.name ++
    g.nodes.attach.flatMap fun ⟨n, _node⟩ =>
      n.inputs ++ n.outputs ++ n.subgraphs.attach.flatMap fun ⟨p, _inside⟩ => p.2.mentions
termination_by sizeOf g
decreasing_by exact sizeOf_nested _node _inside

namespace Graph

variable {σ τ : String → String} {g : Graph}

theorem mapNames_eq (σ : String → String) (g : Graph) :
    g.mapNames σ =
      { g with
        nodes := g.nodes.map (Node.mapNames σ)
        initializers := g.initializers.map fun i => { i with name := σ i.name }
        inputs := g.inputs.map fun v => { v with name := σ v.name }
        outputs := g.outputs.map fun v => { v with name := σ v.name } } := by
  rw [mapNames]
  simp only [Node.attributes_mapSubgraphs]
  rfl

theorem mem_mentions {x : String} :
    x ∈ g.mentions ↔ x ∈ g.inputNames ∨ x ∈ g.initializerNames ∨ x ∈ g.outputNames ∨
      x ∈ g.valueInfo.map ValueInfo.name ∨
        ∃ n ∈ g.nodes, x ∈ n.inputs ∨ x ∈ n.outputs ∨ ∃ p ∈ n.subgraphs, x ∈ p.2.mentions := by
  rw [mentions]
  simp only [List.mem_append, List.mem_flatMap, List.mem_attach, true_and, Subtype.exists, or_assoc,
    exists_prop]

/-- Each name that a graph defines occurs in it. -/
theorem allDefinitions_subset_mentions : g.allDefinitions ⊆ g.mentions := by
  induction g using nested_induction with
  | step g ih =>
      intro x hx
      rw [allDefinitions_eq, List.mem_append, mem_definitions, mem_definedNames] at hx
      rw [mem_mentions]
      rcases hx with (hx | hx | hx) | hx
      · exact Or.inl hx
      · exact Or.inr (Or.inl hx)
      · obtain ⟨n, hn, ho⟩ := mem_produced.1 hx
        exact Or.inr (Or.inr (Or.inr (Or.inr
          ⟨n, hn, Or.inr (Or.inl (Node.mem_presentOutputs.1 ho).1)⟩)))
      · obtain ⟨n, hn, hi⟩ := mem_innerNames.1 hx
        obtain ⟨p, hp, hi⟩ := Node.mem_innerNames.1 hi
        exact Or.inr (Or.inr (Or.inr (Or.inr ⟨n, hn, Or.inr (Or.inr ⟨p, hp, ih n hn p hp hi⟩)⟩)))

/-- Each name that a graph takes from outside occurs in it. -/
theorem captures_subset_mentions : g.captures ⊆ g.mentions := by
  induction g using nested_induction with
  | step g ih =>
      intro x hx
      rw [mem_mentions]
      rcases (mem_captures.1 hx).1 with ⟨n, hn, hx⟩ | hx
      · refine Or.inr (Or.inr (Or.inr (Or.inr ⟨n, hn, ?_⟩)))
        rcases Node.mem_reads.1 hx with hx | ⟨p, hp, hx⟩
        · exact Or.inl (Node.mem_presentInputs.1 hx).1
        · exact Or.inr (Or.inr ⟨p, hp, ih n hn p hp hx⟩)
      · exact Or.inr (Or.inr (Or.inl hx))

/-- Maps that agree on the names in a graph. -/
theorem mapNames_congr (same : ∀ x ∈ g.mentions, σ x = τ x) : g.mapNames σ = g.mapNames τ := by
  induction g using nested_induction with
  | step g ih =>
      have same := fun x hx => same x (mem_mentions.2 hx)
      have nodes : g.nodes.map (Node.mapNames σ) = g.nodes.map (Node.mapNames τ) := by
        refine List.map_congr_left fun n hn => ?_
        have inside : ∀ x, x ∈ n.inputs ∨ x ∈ n.outputs ∨ (∃ p ∈ n.subgraphs, x ∈ p.2.mentions) →
            σ x = τ x := fun x hx => same x (Or.inr (Or.inr (Or.inr (Or.inr ⟨n, hn, hx⟩))))
        unfold Node.mapNames
        rw [List.map_congr_left fun x hx => inside x (Or.inl hx),
          List.map_congr_left fun x hx => inside x (Or.inr (Or.inl hx))]
        congr 1
        refine List.map_congr_left fun a ha => Attribute.mapGraphs_congr fun g' hg' => ?_
        have hp := Node.mem_subgraphs ha hg'
        exact ih n hn _ hp fun x hx => inside x (Or.inr (Or.inr ⟨_, hp, hx⟩))
      rw [mapNames_eq, mapNames_eq, nodes]
      congr 1
      · refine List.map_congr_left fun i hi => ?_
        rw [same i.name (Or.inr (Or.inl (List.mem_map_of_mem hi)))]
      · refine List.map_congr_left fun v hv => ?_
        rw [same v.name (Or.inl (List.mem_map_of_mem hv))]
      · refine List.map_congr_left fun v hv => ?_
        rw [same v.name (Or.inr (Or.inr (Or.inl (List.mem_map_of_mem hv))))]

theorem mapNames_id (g : Graph) : g.mapNames id = g := by
  induction g using nested_induction with
  | step g ih =>
      have nodes : g.nodes.map (Node.mapNames id) = g.nodes := by
        refine (List.map_congr_left fun n hn => ?_).trans (List.map_id _)
        have attributes : n.attributes.map (Attribute.mapGraphs (mapNames id)) = n.attributes := by
          refine (List.map_congr_left fun a ha => ?_).trans (List.map_id _)
          refine (Attribute.mapGraphs_congr fun g' hg' => ?_).trans a.mapGraphs_id
          exact ih n hn _ (Node.mem_subgraphs ha hg')
        unfold Node.mapNames
        rw [attributes, List.map_id, List.map_id]
        cases n
        rfl
      rw [mapNames_eq, nodes]
      simp only [id_eq]
      rw [List.map_id', List.map_id', List.map_id']
      cases g
      rfl

theorem mapNames_mapNames (σ τ : String → String) (g : Graph) :
    (g.mapNames σ).mapNames τ = g.mapNames (τ ∘ σ) := by
  induction g using nested_induction with
  | step g ih =>
      have nodes : (g.nodes.map (Node.mapNames σ)).map (Node.mapNames τ) =
          g.nodes.map (Node.mapNames (τ ∘ σ)) := by
        rw [List.map_map]
        refine List.map_congr_left fun n hn => ?_
        have attributes : (n.attributes.map (Attribute.mapGraphs (mapNames σ))).map
            (Attribute.mapGraphs (mapNames τ)) =
              n.attributes.map (Attribute.mapGraphs (mapNames (τ ∘ σ))) := by
          rw [List.map_map]
          refine List.map_congr_left fun a ha => (Attribute.mapGraphs_mapGraphs _ _ a).trans ?_
          exact Attribute.mapGraphs_congr fun g' hg' => ih n hn _ (Node.mem_subgraphs ha hg')
        unfold Node.mapNames
        simp only [Function.comp_apply, attributes, List.map_map]
      rw [mapNames_eq, mapNames_eq, mapNames_eq, nodes]
      simp [Function.comp_def]

/-- A map that keeps the names in a graph keeps the graph. -/
theorem mapNames_eq_self (same : ∀ x ∈ g.mentions, σ x = x) : g.mapNames σ = g :=
  (mapNames_congr (τ := id) same).trans (mapNames_id g)

end Graph

/-! ## Renaming one value -/

section

variable {old new : String}

/-- A renamed node is a node under other names, when each of its nested graphs is. -/
theorem Node.rename_eq_mapNames {n : Node}
    (nested : ∀ p ∈ n.subgraphs,
      p.2.redirectNested old new = p.2.mapNames (substituteName old new)) :
    n.rename old new = n.mapNames (substituteName old new) := by
  have attributes : n.attributes.map (Attribute.mapGraphs (Graph.redirectNested old new)) =
      n.attributes.map (Attribute.mapGraphs (Graph.mapNames (substituteName old new))) :=
    List.map_congr_left fun a ha =>
      Attribute.mapGraphs_congr fun g hg => nested _ (Node.mem_subgraphs ha hg)
  unfold Node.rename Node.redirect Node.mapNames
  rw [Node.attributes_mapSubgraphs, attributes]

/-- A node that does not read a value stays as it is when the value is redirected. -/
theorem Node.redirect_eq_self {n : Node} (hold : old ≠ "") (unread : old ∉ n.reads) :
    n.redirect old new = n := by
  have inputs : n.inputs.map (substituteName old new) = n.inputs := by
    refine (List.map_congr_left fun x hx => substituteName_of_ne ?_).trans (List.map_id' _)
    rintro rfl
    exact unread (Node.mem_reads.2 (Or.inl (Node.mem_presentInputs.2 ⟨hx, hold⟩)))
  have attributes : n.attributes.map (Attribute.mapGraphs (Graph.redirectNested old new)) =
      n.attributes := by
    refine (List.map_congr_left fun a ha => ?_).trans (List.map_id _)
    refine (Attribute.mapGraphs_congr fun g hg => ?_).trans a.mapGraphs_id
    exact Graph.redirectNested_of_not_mem fun hcap =>
      unread (Node.mem_reads.2 (Or.inr ⟨_, Node.mem_subgraphs ha hg, hcap⟩))
  unfold Node.redirect
  rw [Node.attributes_mapSubgraphs, inputs, attributes]
  cases n
  rfl

namespace Graph

variable {g : Graph}

/-- Redirecting the readers of a value that comes from outside gives it another name everywhere. -/
theorem redirectNested_eq_mapNames (hold : old ≠ "") (undefined : old ∉ g.allDefinitions) :
    g.redirectNested old new = g.mapNames (substituteName old new) := by
  induction g using nested_induction with
  | step g ih =>
      rw [allDefinitions_eq, List.mem_append, not_or, mem_definitions] at undefined
      obtain ⟨hdef, hinner⟩ := undefined
      have made : ∀ n ∈ g.nodes, ∀ o ∈ n.outputs, substituteName old new o = o := by
        refine fun n hn o ho => substituteName_of_ne ?_
        rintro rfl
        exact hdef (mem_definedNames.2 (Or.inr (Or.inr
          (mem_produced.2 ⟨n, hn, Node.mem_presentOutputs.2 ⟨ho, hold⟩⟩))))
      have nodes : g.nodes.map (Node.mapNames (substituteName old new)) =
          g.nodes.map (Node.redirect old new) := by
        refine List.map_congr_left fun n hn => ?_
        rw [← Node.rename_eq_mapNames fun p hp => ih n hn p hp fun hi =>
          hinner (mem_innerNames.2 ⟨n, hn, Node.mem_innerNames.2 ⟨p, hp, hi⟩⟩)]
        unfold Node.rename
        rw [List.map_congr_left (made n hn), List.map_id']
        rfl
      have given : (g.inputs.map fun v => { v with name := substituteName old new v.name }) =
          g.inputs := by
        refine (List.map_congr_left fun v hv => renameInfo_of_ne ?_).trans (List.map_id' _)
        rintro rfl
        exact hdef (mem_definedNames.2 (Or.inl (List.mem_map_of_mem hv)))
      have constants : (g.initializers.map fun i =>
          { i with name := substituteName old new i.name }) = g.initializers := by
        refine (List.map_congr_left fun i hi => ?_).trans (List.map_id' _)
        rw [substituteName_of_ne]
        rintro rfl
        exact hdef (mem_definedNames.2 (Or.inr (Or.inl (List.mem_map_of_mem hi))))
      rw [mapNames_eq, nodes, given, constants]
      unfold redirectNested
      split
      · rw [replaceUses_eq]
      · rename_i hcap
        have hcap : old ∉ g.captures := by simpa using hcap
        have unread : g.nodes.map (Node.redirect old new) = g.nodes :=
          (List.map_congr_left fun n hn => Node.redirect_eq_self hold fun hx =>
            hcap (mem_captures.2 ⟨Or.inl ⟨n, hn, hx⟩, hdef⟩)).trans (List.map_id' _)
        have shown : (g.outputs.map fun v => { v with name := substituteName old new v.name }) =
            g.outputs := by
          refine (List.map_congr_left fun v hv => renameInfo_of_ne ?_).trans (List.map_id' _)
          rintro rfl
          exact hcap (mem_captures.2 ⟨Or.inr (List.mem_map_of_mem hv), hdef⟩)
        rw [unread, shown]
        cases g
        rfl

/-- Renaming a value that nested graphs do not define again gives it another name everywhere. -/
theorem renameValue_eq_mapNames (hold : old ≠ "") (undefined : old ∉ g.innerNames) :
    g.renameValue old new =
      { g.mapNames (substituteName old new) with
        valueInfo := g.valueInfo.map (renameInfo old new) } := by
  have nodes : g.nodes.map (Node.rename old new) =
      g.nodes.map (Node.mapNames (substituteName old new)) :=
    List.map_congr_left fun n hn => Node.rename_eq_mapNames fun p hp =>
      redirectNested_eq_mapNames hold fun hi =>
        undefined (mem_innerNames.2 ⟨n, hn, Node.mem_innerNames.2 ⟨p, hp, hi⟩⟩)
  rw [renameValue_eq, mapNames_eq, nodes]
  rfl

/-- A name that occurs nowhere is not defined, read or declared. -/
theorem not_mem_innerNames_of_not_mem_mentions {x : String} (h : x ∉ g.mentions) :
    x ∉ g.innerNames := fun hx => by
  refine h (allDefinitions_subset_mentions ?_)
  rw [allDefinitions_eq]
  exact List.mem_append_right _ hx

theorem not_mem_definedNames_of_not_mem_mentions {x : String} (h : x ∉ g.mentions) :
    x ∉ g.definedNames := fun hx => by
  refine h (allDefinitions_subset_mentions ?_)
  rw [allDefinitions_eq]
  exact List.mem_append_left _ (mem_definitions.2 hx)

/-- Renaming to a name that did not occur can be taken back. -/
theorem renameValue_renameValue (hold : old ≠ "") (hnew : new ≠ "") (undefined : old ∉ g.innerNames)
    (fresh : new ∉ g.mentions) : (g.renameValue old new).renameValue new old = g := by
  have undefined' : new ∉ (g.renameValue old new).innerNames := by
    rw [innerNames_renameValue]
    exact not_mem_innerNames_of_not_mem_mentions fresh
  have back : (g.mapNames (substituteName old new)).mapNames (substituteName new old) = g := by
    rw [mapNames_mapNames]
    exact mapNames_eq_self fun x hx =>
      substituteName_substituteName fun heq => fresh (heq ▸ hx)
  have declared : (g.valueInfo.map (renameInfo old new)).map (renameInfo new old) = g.valueInfo := by
    rw [List.map_map]
    refine (List.map_congr_left fun v hv => ?_).trans (List.map_id' _)
    unfold renameInfo
    simp only [Function.comp_apply]
    rw [substituteName_substituteName]
    rintro rfl
    exact fresh (mem_mentions.2 (Or.inr (Or.inr (Or.inr (Or.inl (List.mem_map_of_mem hv))))))
  rw [renameValue_eq_mapNames hnew undefined', renameValue_eq_mapNames hold undefined]
  have split : ∀ (h : Graph) (infos : List ValueInfo),
      ({ h with valueInfo := infos } : Graph).mapNames (substituteName new old) =
        { h.mapNames (substituteName new old) with valueInfo := infos } := fun h infos => by
    rw [mapNames_eq, mapNames_eq]
  rw [split, back, declared]
  cases g
  rfl

/-! ## Renamed graphs are valid -/

theorem initializerNames_renameValue (g : Graph) (old new : String) :
    (g.renameValue old new).initializerNames = g.initializerNames.map (substituteName old new) := by
  rw [renameValue_eq]
  simp [initializerNames]

theorem inputNames_renameValue (g : Graph) (old new : String) :
    (g.renameValue old new).inputNames = g.inputNames.map (substituteName old new) := by
  rw [renameValue_eq]
  simp [inputNames, renameInfo]

/-- The image of a name is in an image of names, if it is not the new name, exactly when the name is
one of them. -/
theorem substituteName_mem_map_iff {names : List String} {x : String} (fresh : new ∉ names)
    (hx : x ≠ new) :
    substituteName old new x ∈ names.map (substituteName old new) ↔ x ∈ names := by
  refine ⟨fun h => ?_, List.mem_map_of_mem⟩
  obtain ⟨y, hy, heq⟩ := List.mem_map.1 h
  have hne : y ≠ new := fun h => fresh (h ▸ hy)
  exact substituteName_inj hne hx heq ▸ hy

theorem definitions_renameValue (hold : old ≠ "") (hnew : new ≠ "") (fresh : new ∉ g.definedNames) :
    (g.renameValue old new).definitions = g.definitions.map (substituteName old new) := by
  have constants := initializerNames_renameValue g old new
  have made := produced_renameValue hold hnew g
  unfold initializerNames at constants
  unfold produced at made
  have runtime : (g.renameValue old new).runtimeInputs =
      g.runtimeInputs.map (renameInfo old new) := by
    have inputs : (g.renameValue old new).inputs = g.inputs.map (renameInfo old new) := by
      rw [renameValue_eq]
    rw [runtimeInputs_eq_filter, runtimeInputs_eq_filter, inputs, constants, List.filter_map]
    congr 1
    refine List.filter_congr fun v hv => decide_eq_decide.2 (not_congr ?_)
    refine substituteName_mem_map_iff (fun h => fresh ?_) fun heq => fresh ?_
    · exact mem_definedNames.2 (Or.inr (Or.inl h))
    · exact mem_definedNames.2 (Or.inl (heq ▸ List.mem_map_of_mem hv))
  unfold definitions
  rw [made, constants, runtime]
  simp [renameInfo]

/-- Renaming keeps a graph valid. -/
theorem renameValue_valid {outer : List String} (hold : old ≠ "") (hnew : new ≠ "")
    (valid : g.validate outer = .ok ()) (defined : old ∈ g.definedNames) (fresh : new ∉ g.mentions) :
    (g.renameValue old new).validate outer = .ok () := by
  obtain ⟨nodup, captured, controlled⟩ := validate_eq_ok_iff.1 valid
  have undefined := (Unique.of_nodup nodup).not_mem_innerNames defined
  have unmade := not_mem_innerNames_of_not_mem_mentions fresh
  refine validate_eq_ok_iff.2 ⟨?_, fun x hx => ?_, everywhere_controlled_iff.2 ?_⟩
  · have image : (g.renameValue old new).allDefinitions =
        g.allDefinitions.map (substituteName old new) := by
      have inner : g.innerNames.map (substituteName old new) = g.innerNames :=
        (List.map_congr_left fun x hx => substituteName_of_ne fun heq : x = old =>
          undefined (heq ▸ hx)).trans (List.map_id' _)
      rw [allDefinitions_eq, allDefinitions_eq, List.map_append, inner, innerNames_renameValue,
        definitions_renameValue hold hnew (not_mem_definedNames_of_not_mem_mentions fresh)]
    rw [image]
    refine List.Nodup.map_on (fun x hx y hy => substituteName_inj ?_ ?_) nodup
    · exact fun heq => fresh (allDefinitions_subset_mentions (heq ▸ hx))
    · exact fun heq => fresh (allDefinitions_subset_mentions (heq ▸ hy))
  · exact captured x ((captures_renameValue hold hnew defined unmade).1 hx).1
  · rw [renameValue_eq]
    intro m hm
    obtain ⟨n, hn, rfl⟩ := List.mem_map.1 hm
    have controlled := everywhere_controlled_iff.1 controlled n hn
    exact Node.DeepControlled.rename controlled fun hi => unmade (mem_innerNames.2 ⟨n, hn, hi⟩)

end Graph

end

end TensorGraph
