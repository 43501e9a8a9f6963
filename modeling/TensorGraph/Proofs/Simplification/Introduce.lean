import TensorGraph.Proofs.Evaluation.Storable
import TensorGraph.Proofs.FreshName
import TensorGraph.Proofs.Simplification.Expand
import TensorGraph.Proofs.Simplification.Rules

/-!
# New constants

Input:

* a sound graph whose nodes are in order, and names that are taken, among them all that the graph
  defines at any depth;
* a convolution and the normalization of its result.

Algorithm:

* the new weight and the new bias get fresh names, and a new convolution takes the place of the
  normalization.

Main results:

* `Graph.Sound.setInitializers`: constants with new names keep a graph sound;
* `Change.introduce_sound`: so does a node that reads them in place of another one;
* `View.fuseNormalizationIntoConv_introduces`: the fusion proposes such a change.
-/

namespace TensorGraph

namespace Graph

variable {g g' : Graph}

/-! ## Names -/

/-- The names that are taken by a graph are those that it defines at any depth. -/
theorem mem_allNames {g : Graph} {x : String} : x ∈ g.allNames ↔ x ∈ g.allDefinitions := by
  induction g using nested_induction with
  | step g ih =>
      have nested : x ∈ g.innerNames ↔
          ∃ n ∈ g.nodes, ∃ p ∈ n.subgraphs, x ∈ p.2.allNames := by
        rw [mem_innerNames]
        refine exists_congr fun n => and_congr_right fun hn => ?_
        rw [Node.mem_innerNames]
        exact exists_congr fun p => and_congr_right fun hp => (ih n hn p hp).symm
      rw [allDefinitions_eq, allNames, List.mem_append, List.mem_append, mem_definitions, nested]
      simp only [List.flatMap_subtype, List.unattach_attach, List.mem_flatMap]

/-- Whether the names of the inputs of a graph, and all that it makes, are among some names. -/
def Covered (taken : List String) (g : Graph) : Prop :=
  ∀ x, x ∈ g.inputNames ∨ x ∈ g.made → x ∈ taken

theorem covered_allNames (g : Graph) : g.Covered g.allNames := by
  intro x hx
  rw [mem_allNames, allDefinitions_eq, List.mem_append, mem_definitions, mem_definedNames]
  rcases hx with hx | hx
  · exact Or.inl (Or.inl hx)
  · rcases mem_made.1 hx with hx | hx | hx
    · exact Or.inl (Or.inr (Or.inl hx))
    · exact Or.inl (Or.inr (Or.inr hx))
    · exact Or.inr hx

theorem Covered.mono {taken taken' : List String} (h : g.Covered taken)
    (sub : ∀ x ∈ taken, x ∈ taken') : g.Covered taken' :=
  fun x hx => sub x (h x hx)

theorem Covered.reduce {taken : List String} (h : g.Covered taken) (smaller : g.Reduces g') :
    g'.Covered taken :=
  fun x hx => h x (hx.imp (smaller.refines.inputNames ▸ ·) smaller.mem_made)

end Graph

/-! ## Constants -/

/-- Whether constants can be added to a graph: they have different names, none of which is taken. -/
structure FreshValues (taken : List String) (values : List Initializer) : Prop where
  names : ∀ v ∈ values, v.name ∉ taken
  nodup : (values.map Initializer.name).Nodup
  storable : ∀ v ∈ values, v.Storable

namespace Graph

/-- Constants with new names keep a graph sound. -/
theorem Sound.setInitializers {g : Graph} (sound : g.Sound) {taken : List String}
    (covered : g.Covered taken) {values : List Initializer} (fresh : FreshValues taken values) :
    (g.setInitializers values).Sound ∧ g.Refines (g.setInitializers values) := by
  rw [setInitializers_eq]
  have new : ∀ x ∈ values.map Initializer.name, x ∉ g.inputNames ∧ x ∉ g.made := by
    intro x hx
    obtain ⟨v, hv, rfl⟩ := List.mem_map.1 hx
    exact ⟨fun h => fresh.names v hv (covered _ (Or.inl h)),
      fun h => fresh.names v hv (covered _ (Or.inr h))⟩
  have captures : ∀ x ∈ ({ g with
      initializers := addInitializers g.initializers values } : Graph).captures,
      x ∈ g.captures := by
    intro x hx
    obtain ⟨hread, hundef⟩ := mem_captures.1 hx
    refine mem_captures.2 ⟨hread, fun hdef => hundef ?_⟩
    rcases mem_definedNames.1 hdef with h | h | h
    · exact mem_definedNames.2 (Or.inl h)
    · exact mem_definedNames.2 (Or.inr (Or.inl (mem_names_addInitializers.2 (Or.inl h))))
    · exact mem_definedNames.2 (Or.inr (Or.inr h))
  refine ⟨sound_iff.2 ⟨⟨?_, sound.separate.inputs, fun x hx => sound.separate.captures x
      (captures x hx)⟩, fun n hn => sound.deepRegular hn, sound.acyclic, sound.storable.unknown,
      fun i hi => ?_, sound.storable.inputs, sound.storable.outputs, sound.storable.valueInfo⟩,
    rfl, rfl, fun x hx => ?_, captures⟩
  · rw [List.nodup_iff_count]
    intro x
    have once := sound.separate.count_made_le x
    have most := count_addInitializers_le g.initializers values x
    have single := List.nodup_iff_count.1 fresh.nodup x
    rw [count_made] at once
    rw [count_made]
    change (List.map _ (addInitializers _ _)).count x + g.produced.count x + g.innerNames.count x ≤ 1
    change _ ≤ g.initializerNames.count x + _ at most
    by_cases hx : x ∈ values.map Initializer.name
    · have none := List.count_eq_zero.2 (new x hx).2
      rw [count_made] at none
      omega
    · rw [List.count_eq_zero.2 hx] at most
      omega
  · rcases mem_addInitializers hi with hi | hi
    · exact sound.storable.initializers i hi
    · exact fresh.storable i hi
  · change x ∈ List.map _ (addInitializers _ _) ↔ _
    rw [mem_names_addInitializers]
    exact or_iff_left fun h => (new x h).1 hx

theorem Covered.setInitializers {g : Graph} {taken taken' : List String} (h : g.Covered taken)
    (sub : ∀ x ∈ taken, x ∈ taken') {values : List Initializer}
    (kept : ∀ v ∈ values, v.name ∈ taken') : (g.setInitializers values).Covered taken' := by
  rw [setInitializers_eq]
  intro x hx
  rcases hx with hx | hx
  · exact sub x (h x (Or.inl hx))
  · rcases mem_made.1 hx with hx | hx
    · rcases mem_names_addInitializers.1 hx with hx | hx
      · exact sub x (h x (Or.inr (mem_made.2 (Or.inl hx))))
      · obtain ⟨v, hv, rfl⟩ := List.mem_map.1 hx
        exact kept v hv
    · exact sub x (h x (Or.inr (mem_made.2 (Or.inr hx))))

/-- Constants can be added before a node is replaced. -/
theorem replaceNode_setInitializers {g g' : Graph} {index : Nat} {news : List Node}
    (h : g.replaceNode index news = .ok g') (values : List Initializer) :
    (g.setInitializers values).replaceNode index news = .ok (g'.setInitializers values) := by
  rw [setInitializers_eq, setInitializers_eq]
  unfold replaceNode usedAfterReplacing isOutput at h ⊢
  dsimp only at h ⊢
  split at h
  · cases h
    rfl
  · split at h
    · cases h
    · cases h
      rfl

end Graph

/-! ## Changes -/

/-- Whether a change puts a node that reads new constants in place of a node.  Their names were not
taken before, and are afterwards. -/
def Change.Introduces (g : Graph) (rank : String → Nat) (n : Node) (taken taken' : List String) :
    Change → Prop
  | .forward _ => False
  | .replace nodes values =>
    FreshValues taken values ∧ (∀ v ∈ values, v.name ∈ taken') ∧
      ∃ m, nodes = [m] ∧ (g.setInitializers values).Replaces rank n m

theorem Change.Introduces.mono {g : Graph} {rank : String → Nat} {n : Node}
    {taken taken' taken'' : List String} {change : Change}
    (h : change.Introduces g rank n taken' taken'') (sub : ∀ x ∈ taken, x ∈ taken') :
    change.Introduces g rank n taken taken'' := by
  cases change with
  | forward pairs => exact h
  | replace nodes values =>
      obtain ⟨fresh, rest⟩ := h
      exact ⟨⟨fun v hv hin => fresh.names v hv (sub _ hin), fresh.nodup, fresh.storable⟩, rest⟩

/-- New constants and a node that reads them keep a graph sound and in order. -/
theorem Change.introduce_sound {g g' : Graph} {rank : String → Nat} {n : Node} {index count : Nat}
    {change : Change} {taken taken' : List String} (sound : g.Sound)
    (layout : Node.Layout rank g.nodes) (hn : g.nodes[index]? = some n) (covered : g.Covered taken)
    (sub : ∀ x ∈ taken, x ∈ taken') (introduces : change.Introduces g rank n taken taken')
    (done : change.apply g index = .ok (g', count)) :
    g'.Sound ∧ g.Refines g' ∧ g'.Covered taken' ∧ ∃ rank, Node.Layout rank g'.nodes := by
  cases change with
  | forward pairs => exact introduces.elim
  | replace nodes values =>
      obtain ⟨fresh, kept, m, rfl, replaces⟩ := introduces
      obtain ⟨added, refines⟩ := sound.setInitializers covered fresh
      have covered' := covered.setInitializers sub kept
      cases hr : g.replaceNode index [m] with
      | error e => simp [apply, hr, bind, Except.bind] at done
      | ok h =>
          simp only [apply, hr, bind, Except.bind, pure, Except.pure, Except.ok.injEq,
            Prod.mk.injEq] at done
          obtain ⟨rfl, -⟩ := done
          have same := Graph.nodes_setInitializers g values
          obtain ⟨sound', reduces, layout'⟩ := Graph.replaceNode_sound added (same ▸ layout)
            (same ▸ hn) replaces (Graph.replaceNode_setInitializers hr values)
          exact ⟨sound', refines.trans reduces.refines, covered'.reduce reduces, rank, layout'⟩

/-! ## Convolutions -/

namespace View

variable {v : View} {n : Node}

theorem storable_of_constant? (sound : v.graph.Sound)
    (constants : v.surroundings.constants.Storable) {name : String} {t : Tensor}
    (h : v.constant? name = some t) : t.Storable := by
  have given := (Option.filter_eq_some_iff.1 h).1
  cases hi : v.graph.initializer? name with
  | none =>
      rw [hi, Option.none_or] at given
      exact constants.get? given
  | some t' =>
      rw [hi, Option.some_or] at given
      cases given
      obtain ⟨i, hfind, rfl⟩ := Option.map_eq_some_iff.1 hi
      exact (sound.storable.initializers i (List.mem_of_find?_eq_some hfind)).value

/-- The new weight and the new bias are fresh constants. -/
theorem Normalizes.freshValues {conv : Node} {name weight bias : String} {taken : List String}
    {p : NormalizedNumbers Binary32} (numbers : v.Normalizes n conv name p) (sound : v.graph.Sound)
    (constants : v.surroundings.constants.Storable)
    (hw : weight = freshName taken (name ++ "_bn_fused"))
    (hb : bias = freshName (weight :: taken) (name ++ "_bn_fused_bias")) :
    FreshValues taken [⟨weight, .ofArray p.weightShape p.fused.weight⟩,
      ⟨bias, .vector p.fused.bias⟩] := by
  obtain ⟨t, ht, hweight, hshape⟩ := numbers.weight
  have count : p.fused.weight.size = elementCount p.weightShape := by
    rw [← hshape, ← Tensor.size_of_array? (storable_of_constant? sound constants ht) hweight]
    exact Array.size_mapIdx
  have hwTaken : weight ∉ taken := hw ▸ freshName_not_mem _ _
  have hbTaken : bias ∉ weight :: taken := hb ▸ freshName_not_mem _ _
  rw [List.mem_cons, not_or] at hbTaken
  refine ⟨fun i hi => ?_, ?_, fun i hi => ?_⟩
  · simp only [List.mem_cons, List.not_mem_nil, or_false] at hi
    rcases hi with rfl | rfl
    · exact hwTaken
    · exact hbTaken.2
  · simpa using fun heq : weight = bias => hbTaken.1 heq.symm
  · simp only [List.mem_cons, List.not_mem_nil, or_false] at hi
    rcases hi with rfl | rfl
    · exact ⟨hw ▸ freshName_ne_empty (by simp), (Tensor.computed_ofArray count).storable⟩
    · exact ⟨hb ▸ freshName_ne_empty (by simp), (Tensor.computed_vector _).storable⟩

theorem subset_fuseNormalizationIntoConv (v : View) (n : Node) {taken : List String} {x : String}
    (hx : x ∈ taken) : x ∈ (v.fuseNormalizationIntoConv taken n).1 := by
  unfold fuseNormalizationIntoConv
  split
  · exact hx
  · exact List.mem_cons_of_mem _ (List.mem_cons_of_mem _ hx)

/-- The fusion of a normalization into a convolution introduces two constants. -/
theorem fuseNormalizationIntoConv_introduces {rank : String → Nat} {index : Nat} {change : Change}
    (sound : v.graph.Sound) (layout : Node.Layout rank v.graph.nodes)
    (zero : ∀ x, x ∉ v.graph.produced → rank x = 0) (hn : v.graph.nodes[index]? = some n)
    (constants : v.surroundings.constants.Storable) {taken : List String}
    (covered : v.graph.Covered taken) (h : (v.fuseNormalizationIntoConv taken n).2 = some change) :
    change.Introduces v.graph rank n taken (v.fuseNormalizationIntoConv taken n).1 := by
  obtain ⟨result, i, conv, name, p, x, output, w, b, hresult, hprod, numbers, hx, houtput, hw, hb,
    taken', rfl⟩ := fuseNormalizationIntoConv_eq_some h
  obtain ⟨hconv, hdomain⟩ := Node.isOperator_iff.1 numbers.convolution
  have fresh := numbers.freshValues sound constants hw hb
  have hmem := List.mem_of_getElem? (v.computations_of result i conv hprod).1
  have deep := sound.deepRegular hmem
  have none : conv.subgraphs = [] := deep.regular.flat hdomain hconv
  rw [taken']
  generalize hvalues : ([⟨w, .ofArray p.weightShape p.fused.weight⟩,
    ⟨b, .vector p.fused.bias⟩] : List Initializer) = values at fresh ⊢
  have names : values.map Initializer.name = [w, b] := by rw [← hvalues]; rfl
  refine ⟨fresh, fun i hi => ?_, _, rfl, ?_⟩
  · have := List.mem_map_of_mem (f := Initializer.name) hi
    rw [names] at this
    simp only [List.mem_cons, List.not_mem_nil, or_false] at this ⊢
    tauto
  -- the new node reads one value of the graph and the new constants
  have reads : ∀ y ∈ ({ conv with inputs := [x, w, b], outputs := [output] } : Node).reads,
      y = x ∨ y ∈ values.map Initializer.name := by
    intro y hy
    rcases Node.mem_reads.1 hy with hy | ⟨q, hq, -⟩
    · obtain ⟨hy, -⟩ := Node.mem_presentInputs.1 hy
      rw [names]
      exact List.mem_cons.1 hy
    · have hq' : q ∈ conv.subgraphs := hq
      rw [none] at hq'
      cases hq'
  have outputs : ∀ z ∈ ({ conv with inputs := [x, w, b], outputs := [output] } : Node).presentOutputs,
      z ∈ n.presentOutputs := fun z hz => Node.mem_presentOutputs_of_head? houtput rfl hz
  have storable := deep.regular.storable
  constructor
  case deepRegular =>
    refine ⟨⟨Node.checkControlFlow_of_ne (by simp [hconv]) (by simp [hconv]),
      fun _ _ => Nat.le_refl 1, fun ho => ?_, fun _ _ => none, storable.opType, storable.unknown,
      storable.attributes⟩, deep.inside⟩
    rcases ho with ho | ho <;> exact absurd (hconv.symm.trans ho) (by decide)
  case outputs =>
    intro y
    have sub : [output].Sublist n.outputs :=
      List.singleton_sublist.2 (List.mem_of_mem_head? houtput)
    exact (sub.filter _).count_le y
  case inner =>
    intro y
    have empty : ({ conv with inputs := [x, w, b], outputs := [output] } : Node).innerNames = [] :=
      Node.innerNames_eq_nil none
    rw [empty]
    exact Nat.zero_le _
  case visible =>
    intro y hy
    rcases reads y hy with rfl | hy
    · refine Graph.reads_subset ?_ (Node.mem_reads_of_input? hx)
      rw [Graph.nodes_setInitializers]
      exact hmem
    · refine Or.inl (Graph.mem_definedNames.2 (Or.inr (Or.inl ?_)))
      rw [Graph.setInitializers_eq]
      exact Graph.mem_names_addInitializers.2 (Or.inr hy)
  case lower =>
    intro y hy z hz
    rcases reads y hy with rfl | hy
    · exact (feeds_of_producer? hn hresult hprod hx (outputs z hz)).rank_lt layout.reads
    · have new : rank y = 0 := by
        refine zero y fun hp => ?_
        obtain ⟨i, hi, rfl⟩ := List.mem_map.1 hy
        exact fresh.names i hi (covered _ (Or.inr (Graph.mem_made.2 (Or.inr (Or.inl hp)))))
      have := layout.reads n (List.mem_of_getElem? hn) result (Node.mem_reads_of_input? hresult) z
        (outputs z hz)
      omega

end View

end TensorGraph
