import TensorGraph.Proofs.Graph.Edit
import TensorGraph.Proofs.Graph.Order

/-!
# Graphs that are made smaller

Input:

* a graph whose names are kept apart (`Graph.Separate`);
* a graph that was made from it, with the same interface and without new values from outside
  (`Graph.Refines`), and perhaps without names that the first one does not make (`Graph.Reduces`).

Results:

* names stay apart (`Graph.Separate.reduce`), and no definition is doubled
  (`Graph.Reduces.count_allDefinitions`, `Graph.Refines.nodup_allDefinitions`);
* both can be chained (`Graph.Reduces.trans`, `Graph.Refines.trans`);
* the names of nested graphs are kept apart too (`Graph.Separate.nested`);
* a graph that can be sorted is reduced by it (`Graph.exists_sortTopologically`).
-/

namespace TensorGraph
namespace Graph

/-- The names of the initializers. -/
def initializerNames (g : Graph) : List String := g.initializers.map Initializer.name

/-- The names of the inputs. -/
def inputNames (g : Graph) : List String := g.inputs.map ValueInfo.name

/-- The names of the outputs. -/
def outputNames (g : Graph) : List String := g.outputs.map ValueInfo.name

/-- The names that a graph makes, at every depth.  Those of inputs are given from outside. -/
def made (g : Graph) : List String := g.initializerNames ++ g.produced ++ g.innerNames

/-- Whether no name that a graph makes is made twice or is an input's.  An initializer may stand for an
input. -/
structure Unique (g : Graph) : Prop where
  nodup : g.made.Nodup
  inputs : ∀ x ∈ g.inputNames, x ∉ g.produced ++ g.innerNames

/-- Whether all names are kept apart: what a graph makes, its inputs, and what it captures.  An
initializer may stand for an input. -/
structure Separate (g : Graph) : Prop where
  nodup : g.made.Nodup
  inputs : ∀ x ∈ g.inputNames, x ∉ g.produced ++ g.innerNames
  captures : ∀ x ∈ g.captures, x ∉ g.innerNames

/-- Whether a graph was made smaller: it has the same interface, makes no name more often, and
captures nothing new. -/
structure Reduces (g g' : Graph) : Prop where
  inputs : g'.inputs = g.inputs
  outputs : g'.outputNames = g.outputNames
  made : ∀ x, g'.made.count x ≤ g.made.count x
  defaults : ∀ x ∈ g.inputNames, (x ∈ g'.initializerNames ↔ x ∈ g.initializerNames)
  captures : ∀ x ∈ g'.captures, x ∈ g.captures

/-- Whether a graph can stand for another one: it has the same interface and captures nothing new. -/
structure Refines (g g' : Graph) : Prop where
  inputs : g'.inputs = g.inputs
  outputs : g'.outputNames = g.outputNames
  defaults : ∀ x ∈ g.inputNames, (x ∈ g'.initializerNames ↔ x ∈ g.initializerNames)
  captures : ∀ x ∈ g'.captures, x ∈ g.captures

theorem mem_made {g : Graph} {x : String} :
    x ∈ g.made ↔ x ∈ g.initializerNames ∨ x ∈ g.produced ∨ x ∈ g.innerNames := by
  simp only [made, List.mem_append, or_assoc]

theorem mem_uses {g : Graph} {x : String} :
    x ∈ g.uses ↔ (∃ n ∈ g.nodes, x ∈ n.reads) ∨ x ∈ g.outputNames := by
  simp only [uses, outputNames, List.mem_append, List.mem_flatMap]

theorem isInput_iff {g : Graph} {x : String} : g.isInput x ↔ x ∈ g.inputNames := by
  simp only [isInput, inputNames, List.any_eq_true, List.mem_map, beq_iff_eq]

theorem isOutput_iff {g : Graph} {x : String} : g.isOutput x = true ↔ x ∈ g.outputNames := by
  simp [isOutput, outputNames]

theorem count_made (g : Graph) (x : String) :
    g.made.count x =
      g.initializerNames.count x + g.produced.count x + g.innerNames.count x := by
  simp only [made, List.count_append]

theorem made_replaceUses (g : Graph) (old new : String) :
    (g.replaceUses old new).made = g.made := by
  have hinit : (g.replaceUses old new).initializerNames = g.initializerNames := by
    rw [replaceUses_eq]
    rfl
  unfold made
  rw [hinit, produced_replaceUses, innerNames_replaceUses]

theorem count_allDefinitions (g : Graph) (x : String) :
    g.allDefinitions.count x = g.made.count x + (g.runtimeInputs.map ValueInfo.name).count x := by
  rw [allDefinitions_eq, count_made]
  unfold definitions initializerNames produced
  simp only [List.count_append]
  omega

/-- The inputs that need a value from outside, when initializers stand for the same inputs. -/
theorem runtimeInputs_eq_of_defaults {g g' : Graph} (inputs : g'.inputs = g.inputs)
    (defaults : ∀ x ∈ g.inputNames, (x ∈ g'.initializerNames ↔ x ∈ g.initializerNames)) :
    g'.runtimeInputs = g.runtimeInputs := by
  unfold Graph.runtimeInputs
  rw [inputs]
  refine List.filter_congr fun v hv => ?_
  rw [Bool.eq_iff_iff, isNone_initializer?, isNone_initializer?]
  exact not_congr (defaults v.name (List.mem_map.2 ⟨v, hv, rfl⟩))

/-- No name is defined more often when none is made more often. -/
theorem count_allDefinitions_le {g g' : Graph} (inputs : g'.inputs = g.inputs)
    (defaults : ∀ x ∈ g.inputNames, (x ∈ g'.initializerNames ↔ x ∈ g.initializerNames)) {x : String}
    (made : g'.made.count x ≤ g.made.count x) :
    g'.allDefinitions.count x ≤ g.allDefinitions.count x := by
  rw [count_allDefinitions, count_allDefinitions, runtimeInputs_eq_of_defaults inputs defaults]
  omega

namespace Reduces

variable {g g' g'' : Graph}

theorem refl (g : Graph) : Reduces g g :=
  ⟨rfl, rfl, fun _ => Nat.le_refl _, fun _ _ => Iff.rfl, fun _ h => h⟩

theorem trans (h : Reduces g g') (h' : Reduces g' g'') : Reduces g g'' where
  inputs := h'.inputs.trans h.inputs
  outputs := h'.outputs.trans h.outputs
  made x := Nat.le_trans (h'.made x) (h.made x)
  defaults x hx := by
    have hx' : x ∈ g'.inputNames := by
      unfold inputNames
      rw [h.inputs]
      exact hx
    exact (h'.defaults x hx').trans (h.defaults x hx)
  captures x hx := h.captures x (h'.captures x hx)

theorem mem_made (h : Reduces g g') {x : String} (hx : x ∈ g'.made) : x ∈ g.made := by
  rw [← List.count_pos_iff] at hx ⊢
  exact Nat.lt_of_lt_of_le hx (h.made x)

theorem refines (h : Reduces g g') : Refines g g' :=
  ⟨h.inputs, h.outputs, h.defaults, h.captures⟩

end Reduces

namespace Refines

variable {g g' g'' : Graph}

theorem refl (g : Graph) : Refines g g := (Reduces.refl g).refines

theorem inputNames (h : Refines g g') : g'.inputNames = g.inputNames :=
  congrArg (List.map ValueInfo.name) h.inputs

theorem trans (h : Refines g g') (h' : Refines g' g'') : Refines g g'' where
  inputs := h'.inputs.trans h.inputs
  outputs := h'.outputs.trans h.outputs
  defaults x hx := (h'.defaults x (h.inputNames ▸ hx)).trans (h.defaults x hx)
  captures x hx := h.captures x (h'.captures x hx)

/-- The same inputs need a value from outside. -/
theorem runtimeInputs (h : Refines g g') : g'.runtimeInputs = g.runtimeInputs :=
  runtimeInputs_eq_of_defaults h.inputs h.defaults

/-- No name is defined twice when names are kept apart and no input was doubled before. -/
theorem nodup_allDefinitions (h : Refines g g') (separate : Separate g')
    (nodup : g.allDefinitions.Nodup) : g'.allDefinitions.Nodup := by
  rw [List.nodup_iff_count] at nodup ⊢
  intro x
  have before := nodup x
  have made := List.nodup_iff_count.1 separate.nodup x
  rw [count_allDefinitions] at before ⊢
  rw [h.runtimeInputs]
  by_cases hx : x ∈ g.runtimeInputs.map ValueInfo.name
  · obtain ⟨v, hv, rfl⟩ := List.mem_map.1 hx
    have hv' := hv
    rw [← h.runtimeInputs] at hv'
    obtain ⟨hin, hinit⟩ := mem_runtimeInputs.1 hv'
    have none : v.name ∉ g'.made := by
      rw [Graph.made, List.append_assoc, List.mem_append, not_or]
      exact ⟨hinit, separate.inputs v.name (List.mem_map_of_mem hin)⟩
    rw [List.count_eq_zero.2 none]
    omega
  · rw [List.count_eq_zero.2 hx]
    omega

end Refines

/-- A graph without a cycle can be sorted, which only changes the order of its nodes. -/
theorem exists_sortTopologically {g : Graph} (distinct : Node.Distinct g.nodes)
    (acyclic : Node.Acyclic g.nodes) :
    ∃ ns, g.sortTopologically = .ok { g with nodes := ns } ∧ ns.Perm g.nodes ∧ Node.Sorted ns ∧
      g.Reduces { g with nodes := ns } := by
  obtain ⟨g', hg'⟩ := sortTopologically_of_acyclic acyclic
  obtain ⟨ns, rfl, perm, sorted⟩ := sortTopologically_eq_ok distinct hg'
  have produced : (ns.flatMap Node.presentOutputs).Perm g.produced := perm.flatMap_right _
  have inner : (ns.flatMap Node.innerNames).Perm g.innerNames := perm.flatMap_right _
  refine ⟨ns, hg', perm, sorted, rfl, rfl, fun x => ?_, fun _ _ => Iff.rfl, fun x hx => ?_⟩
  · rw [count_made, count_made]
    exact Nat.le_of_eq (congrArg₂ _ (congrArg₂ _ rfl (produced.count_eq x)) (inner.count_eq x))
  · obtain ⟨hread, hundef⟩ := mem_captures.1 hx
    refine mem_captures.2 ⟨?_, fun hdef => hundef ?_⟩
    · rcases hread with ⟨n, hn, hr⟩ | ho
      · exact Or.inl ⟨n, perm.mem_iff.1 hn, hr⟩
      · exact Or.inr ho
    · rcases mem_definedNames.1 hdef with hdef | hdef | hdef
      · exact mem_definedNames.2 (Or.inl hdef)
      · exact mem_definedNames.2 (Or.inr (Or.inl hdef))
      · exact mem_definedNames.2 (Or.inr (Or.inr (produced.mem_iff.2 hdef)))

/-- No name is defined more often than before. -/
theorem Reduces.count_allDefinitions {g g' : Graph} (h : Reduces g g') (x : String) :
    g'.allDefinitions.count x ≤ g.allDefinitions.count x :=
  count_allDefinitions_le h.inputs h.defaults (h.made x)

namespace Unique

variable {g g' : Graph}

/-- Names are unique when none is defined twice. -/
theorem of_nodup (nodup : g.allDefinitions.Nodup) : Unique g := by
  have le := List.nodup_iff_count.1 nodup
  simp only [Graph.count_allDefinitions, count_made] at le
  refine ⟨?_, ?_⟩
  · rw [List.nodup_iff_count]
    intro x
    have := le x
    rw [count_made]
    omega
  · intro x hx hm
    have pos := List.count_pos_iff.2 hm
    rw [List.count_append] at pos
    have := le x
    by_cases hi : x ∈ g.initializerNames
    · have pos' := List.count_pos_iff.2 hi
      omega
    · obtain ⟨v, hv, rfl⟩ := List.mem_map.1 hx
      have : v.name ∈ g.runtimeInputs.map ValueInfo.name :=
        List.mem_map.2 ⟨v, mem_runtimeInputs.2 ⟨hv, hi⟩, rfl⟩
      have pos' := List.count_pos_iff.2 this
      omega

theorem count_made_le (h : Unique g) (x : String) : g.made.count x ≤ 1 :=
  List.nodup_iff_count.1 h.nodup x

/-- No two nodes have an output in common. -/
theorem distinct (h : Unique g) : Node.Distinct g.nodes := by
  have := h.nodup
  rw [made, List.append_assoc, List.nodup_append] at this
  exact (List.nodup_append.1 this.2.1).1

theorem nodup_initializerNames (h : Unique g) : g.initializerNames.Nodup := by
  have := h.nodup
  rw [made, List.append_assoc] at this
  exact (List.nodup_append.1 this).1

theorem not_mem_innerNames (h : Unique g) {x : String} (hx : x ∈ g.definedNames) :
    x ∉ g.innerNames := by
  intro hi
  have pos := List.count_pos_iff.2 hi
  have le := h.count_made_le x
  rw [count_made] at le
  rcases mem_definedNames.1 hx with hx | hx | hx
  · exact h.inputs x hx (List.mem_append_right _ hi)
  · have : 0 < g.initializerNames.count x := List.count_pos_iff.2 hx
    omega
  · have := List.count_pos_iff.2 hx
    omega

theorem produced_not_mem_initializerNames (h : Unique g) {x : String} (hx : x ∈ g.produced) :
    x ∉ g.initializerNames := by
  intro hi
  have pos := List.count_pos_iff.2 hi
  have pos' := List.count_pos_iff.2 hx
  have le := h.count_made_le x
  rw [count_made] at le
  omega

theorem produced_not_mem_inputNames (h : Unique g) {x : String} (hx : x ∈ g.produced) :
    x ∉ g.inputNames :=
  fun hi => h.inputs x hi (List.mem_append_left _ hx)

end Unique

namespace Separate

variable {g g' : Graph}

theorem unique (h : Separate g) : Unique g := ⟨h.nodup, h.inputs⟩

theorem count_made_le (h : Separate g) (x : String) : g.made.count x ≤ 1 := h.unique.count_made_le x

/-- No two nodes have an output in common. -/
theorem distinct (h : Separate g) : Node.Distinct g.nodes := h.unique.distinct

theorem not_mem_innerNames (h : Separate g) {x : String} (hx : x ∈ g.definedNames) :
    x ∉ g.innerNames := h.unique.not_mem_innerNames hx

theorem produced_not_mem_initializerNames (h : Separate g) {x : String} (hx : x ∈ g.produced) :
    x ∉ g.initializerNames := h.unique.produced_not_mem_initializerNames hx

/-- What is visible in a graph is defined by no nested graph. -/
theorem visible_not_mem_innerNames (h : Separate g) {x : String}
    (hx : x ∈ g.definedNames ∨ x ∈ g.captures) : x ∉ g.innerNames :=
  hx.elim h.not_mem_innerNames (h.captures x)

/-- Names stay apart in a smaller graph. -/
theorem reduce (h : Separate g) (smaller : Reduces g g') : Separate g' := by
  have le : ∀ x, g'.made.count x ≤ 1 := fun x =>
    Nat.le_trans (smaller.made x) (h.count_made_le x)
  refine ⟨List.nodup_iff_count.2 le, ?_, ?_⟩
  · intro x hx hmade
    have hx' : x ∈ g.inputNames := by
      unfold inputNames at hx ⊢
      rwa [smaller.inputs] at hx
    have hmade' : x ∈ g'.made := by
      rw [made, List.append_assoc]
      exact List.mem_append_right _ hmade
    rcases mem_made.1 (smaller.mem_made hmade') with hi | hi
    · -- the initializer of an input stays, and its name is made once
      have pos := List.count_pos_iff.2 ((smaller.defaults x hx').2 hi)
      have pos' := List.count_pos_iff.2 hmade
      have := le x
      rw [count_made] at this
      rw [List.count_append] at pos'
      omega
    · exact h.inputs x hx' (List.mem_append.2 hi)
  · intro x hx hi
    have hx' := smaller.captures x hx
    have hdef := (mem_captures.1 hx').2
    rcases mem_made.1 (smaller.mem_made (mem_made.2 (Or.inr (Or.inr hi)))) with hm | hm | hm
    · exact hdef (mem_definedNames.2 (Or.inr (Or.inl hm)))
    · exact hdef (mem_definedNames.2 (Or.inr (Or.inr hm)))
    · exact h.captures x hx' hm

/-- No name is defined twice in the nested graphs of a node. -/
theorem nodup_innerNames (h : Separate g) {n : Node} (hn : n ∈ g.nodes) : n.innerNames.Nodup := by
  have := h.nodup
  rw [made, List.nodup_append] at this
  exact (List.pairwise_flatMap.1 this.2.1).1 n hn

/-- No name is defined twice in a nested graph. -/
theorem nodup_nested (h : Separate g) {n : Node} (hn : n ∈ g.nodes) {p : String × Graph}
    (hp : p ∈ n.subgraphs) : p.2.allDefinitions.Nodup :=
  (List.pairwise_flatMap.1 (h.nodup_innerNames hn)).1 p hp

/-- Names are kept apart when none is defined twice and no nested graph defines a captured one. -/
theorem of_nodup (nodup : g.allDefinitions.Nodup) (captures : ∀ x ∈ g.captures, x ∉ g.innerNames) :
    Separate g :=
  ⟨(Unique.of_nodup nodup).nodup, (Unique.of_nodup nodup).inputs, captures⟩

/-- The names in nested graphs are kept apart. -/
theorem nested (h : Separate g) {n : Node} (hn : n ∈ g.nodes) {p : String × Graph}
    (hp : p ∈ n.subgraphs) : Separate p.2 := by
  refine of_nodup (h.nodup_nested hn hp) fun x hx hi => ?_
  have hvisible := reads_subset hn (Node.mem_reads.2 (Or.inr ⟨p, hp, hx⟩))
  refine h.visible_not_mem_innerNames hvisible
    (mem_innerNames.2 ⟨n, hn, Node.mem_innerNames.2 ⟨p, hp, ?_⟩⟩)
  rw [allDefinitions_eq]
  exact List.mem_append_right _ hi

end Separate

end Graph
end TensorGraph
