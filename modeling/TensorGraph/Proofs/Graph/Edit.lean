import TensorGraph.Graph.Edit
import TensorGraph.Proofs.Graph.Nested

/-!
# Redirecting and renaming

Input:

* a graph, and two names `old` and `new` that are not empty;
* no nested graph defines `new`.

Algorithm:

* `Graph.replaceUses` lets every reader of `old` read `new`, in nested graphs too;
* `Graph.renameValue` also gives the value `old` the name `new` where it is defined.

Main results:

* a redirected node reads the images of what it read before (`Node.mem_reads_redirect`);
* redirecting changes no definition (`Graph.sameFrame_redirectNested`);
* renaming a defined value takes nothing new from outside (`Graph.captures_renameValue`).
-/

namespace TensorGraph

@[simp] theorem substituteName_self (old new : String) : substituteName old new old = new := by
  simp [substituteName]

theorem substituteName_of_ne {old new x : String} (h : x ≠ old) : substituteName old new x = x := by
  simp [substituteName, h]

/-- A name that is not empty stays so. -/
theorem substituteName_eq_empty_iff {old new x : String} (hold : old ≠ "") (hnew : new ≠ "") :
    substituteName old new x = "" ↔ x = "" := by
  by_cases h : x = old
  · subst h
    simp [hold, hnew]
  · rw [substituteName_of_ne h]

/-- Omitted names stay omitted under a substitution. -/
theorem filter_map_substituteName {old new : String} (hold : old ≠ "") (hnew : new ≠ "")
    (names : List String) :
    (names.map (substituteName old new)).filter (· ≠ "") =
      (names.filter (· ≠ "")).map (substituteName old new) := by
  rw [List.filter_map]
  congr 1
  apply List.filter_congr
  intro x _
  simp [substituteName_eq_empty_iff hold hnew]

/-- The redirected form of a graph that is nested in a redirected one. -/
def Graph.redirectNested (old new : String) (g : Graph) : Graph :=
  if g.captures.contains old then
    { g.replaceUses old new with
      outputs := (g.replaceUses old new).outputs.map fun o =>
        { o with name := substituteName old new o.name } }
  else g

/-- The redirected form of a node. -/
def Node.redirect (old new : String) (n : Node) : Node :=
  { n with
    inputs := n.inputs.map (substituteName old new)
    attributes := (n.mapSubgraphs fun g _ => g.redirectNested old new).attributes }

/-- The renamed form of a node. -/
def Node.rename (old new : String) (n : Node) : Node :=
  { n.redirect old new with outputs := n.outputs.map (substituteName old new) }

/-! ## Redirected nodes -/

namespace Graph

theorem replaceUses_eq (g : Graph) (old new : String) :
    g.replaceUses old new = { g with nodes := g.nodes.map (Node.redirect old new) } := by
  rw [replaceUses]
  rfl

end Graph

namespace Node

variable {old new : String} {n : Node}

theorem nested_redirect (old new : String) (n : Node) :
    Nested (fun g g' => g' = g.redirectNested old new) n (n.redirect old new) := by
  obtain ⟨opType, domain, attributes⟩ := (revises_mapSubgraphs n (Graph.redirectNested old new)).nested
  exact ⟨opType, domain, attributes⟩

theorem nested_rename (old new : String) (n : Node) :
    Nested (fun g g' => g' = g.redirectNested old new) n (n.rename old new) := by
  obtain ⟨opType, domain, attributes⟩ := nested_redirect old new n
  exact ⟨opType, domain, attributes⟩

@[simp] theorem presentOutputs_redirect :
    (n.redirect old new).presentOutputs = n.presentOutputs := rfl

theorem presentInputs_redirect (hold : old ≠ "") (hnew : new ≠ "") :
    (n.redirect old new).presentInputs = n.presentInputs.map (substituteName old new) :=
  filter_map_substituteName hold hnew n.inputs

theorem presentOutputs_rename (hold : old ≠ "") (hnew : new ≠ "") :
    (n.rename old new).presentOutputs = n.presentOutputs.map (substituteName old new) :=
  filter_map_substituteName hold hnew n.outputs

theorem reads_rename : (n.rename old new).reads = (n.redirect old new).reads := by
  rw [reads, reads]
  rfl

/-- What a redirected node reads, given what its redirected nested graphs capture. -/
theorem mem_reads_redirect_of (hold : old ≠ "") (hnew : new ≠ "")
    (nested : ∀ p ∈ n.subgraphs, ∀ x, x ∈ (p.2.redirectNested old new).captures ↔
      ∃ y ∈ p.2.captures, substituteName old new y = x) {x : String} :
    x ∈ (n.redirect old new).reads ↔ ∃ y ∈ n.reads, substituteName old new y = x := by
  have rel := nested_redirect old new n
  simp only [mem_reads, presentInputs_redirect hold hnew, List.mem_map]
  constructor
  · rintro (⟨y, hy, rfl⟩ | ⟨p', hp', hx⟩)
    · exact ⟨y, Or.inl hy, rfl⟩
    · obtain ⟨p, hp, heq⟩ := rel.exists_left hp'
      rw [heq, nested p hp] at hx
      obtain ⟨y, hy, rfl⟩ := hx
      exact ⟨y, Or.inr ⟨p, hp, hy⟩, rfl⟩
  · rintro ⟨y, hy | ⟨p, hp, hy⟩, rfl⟩
    · exact Or.inl ⟨y, hy, rfl⟩
    · obtain ⟨p', hp', heq⟩ := rel.exists_right hp
      refine Or.inr ⟨p', hp', ?_⟩
      rw [heq, nested p hp]
      exact ⟨y, hy, rfl⟩

end Node

/-! ## Redirected nested graphs -/

namespace Graph

variable {old new : String}

/-- Redirecting changes nothing but what nodes read and which values are outputs. -/
structure SameFrame (g g' : Graph) : Prop where
  initializers : g'.initializers = g.initializers
  inputs : g'.inputs = g.inputs
  outputs : g'.outputs.length = g.outputs.length
  definitions : g'.definitions = g.definitions
  innerNames : g'.innerNames = g.innerNames

theorem SameFrame.allDefinitions {g g' : Graph} (h : SameFrame g g') :
    g'.allDefinitions = g.allDefinitions := by
  rw [allDefinitions_eq, allDefinitions_eq, h.definitions, h.innerNames]

theorem definitions_replaceUses (g : Graph) (old new : String) :
    (g.replaceUses old new).definitions = g.definitions := by
  rw [replaceUses_eq]
  unfold definitions
  congr 1
  simp [List.flatMap_map]

theorem definedNames_replaceUses (g : Graph) (old new : String) :
    (g.replaceUses old new).definedNames = g.definedNames := by
  rw [replaceUses_eq]
  unfold definedNames
  congr 1
  simp [List.flatMap_map]

theorem sameFrame_redirectNested (g : Graph) (old new : String) :
    SameFrame g (g.redirectNested old new) := by
  induction g using nested_induction with
  | step g ih =>
      unfold redirectNested
      split
      · have inner : (g.replaceUses old new).innerNames = g.innerNames := by
          rw [replaceUses_eq]
          unfold innerNames
          rw [List.flatMap_map, List.flatMap_def, List.flatMap_def]
          congr 1
          refine List.map_congr_left fun n hn => ?_
          refine ((Node.nested_redirect old new n).mono (S := SameFrame) ?_).innerNames_eq ?_
          · rintro p hp _ rfl
            exact ih n hn p hp
          · exact fun _ _ same => same.allDefinitions
        refine ⟨?_, ?_, ?_, definitions_replaceUses g old new, inner⟩ <;>
          simp [replaceUses_eq]
      · exact ⟨rfl, rfl, rfl, rfl, rfl⟩

/-- A redirected nested graph captures the images of what it captured before. -/
theorem mem_captures_redirectNested (hold : old ≠ "") (hnew : new ≠ "") {g : Graph}
    (fresh : new ∉ g.allDefinitions) {x : String} :
    x ∈ (g.redirectNested old new).captures ↔ ∃ y ∈ g.captures, substituteName old new y = x := by
  induction g using nested_induction generalizing x with
  | step g ih =>
      have reads : ∀ n ∈ g.nodes, ∀ x, x ∈ (n.redirect old new).reads ↔
          ∃ y ∈ n.reads, substituteName old new y = x := by
        intro n hn x
        refine Node.mem_reads_redirect_of hold hnew fun p hp x => ih n hn p hp ?_
        intro h
        apply fresh
        rw [allDefinitions_eq]
        exact List.mem_append_right _
          (mem_innerNames.2 ⟨n, hn, Node.mem_innerNames.2 ⟨p, hp, h⟩⟩)
      have hfresh : new ∉ g.definedNames := by
        intro h
        apply fresh
        rw [allDefinitions_eq]
        exact List.mem_append_left _ (mem_definitions.2 h)
      unfold redirectNested
      split
      · rename_i hcap
        have hold' : old ∉ g.definedNames := (mem_captures.1 (by simpa using hcap)).2
        have hdef : ∀ y, substituteName old new y ∈ g.definedNames ↔ y ∈ g.definedNames := by
          intro y
          by_cases hy : y = old
          · subst hy
            simp [hold', hfresh]
          · rw [substituteName_of_ne hy]
        rw [mem_captures]
        have hd : ({ g.replaceUses old new with
            outputs := (g.replaceUses old new).outputs.map fun o =>
              { o with name := substituteName old new o.name } } : Graph).definedNames =
              g.definedNames := definedNames_replaceUses g old new
        rw [hd]
        simp only [replaceUses_eq, List.map_map, List.mem_map, mem_captures]
        constructor
        · rintro ⟨⟨_, ⟨n, hn, rfl⟩, hx⟩ | ⟨o, ho, rfl⟩, hx'⟩
          · obtain ⟨y, hy, rfl⟩ := (reads n hn _).1 hx
            exact ⟨y, ⟨Or.inl ⟨n, hn, hy⟩, fun h => hx' ((hdef y).2 h)⟩, rfl⟩
          · exact ⟨o.name, ⟨Or.inr ⟨o, ho, rfl⟩, fun h => hx' ((hdef _).2 h)⟩, rfl⟩
        · rintro ⟨y, ⟨⟨n, hn, hy⟩ | ⟨o, ho, rfl⟩, hy'⟩, rfl⟩
          · exact ⟨Or.inl ⟨_, ⟨n, hn, rfl⟩, (reads n hn _).2 ⟨y, hy, rfl⟩⟩,
              fun h => hy' ((hdef y).1 h)⟩
          · exact ⟨Or.inr ⟨o, ho, rfl⟩, fun h => hy' ((hdef _).1 h)⟩
      · rename_i hcap
        constructor
        · intro hx
          refine ⟨x, hx, substituteName_of_ne ?_⟩
          rintro rfl
          exact hcap (by simpa using hx)
        · rintro ⟨y, hy, rfl⟩
          rwa [substituteName_of_ne]
          rintro rfl
          exact hcap (by simpa using hy)

end Graph

namespace Node

variable {old new : String} {n : Node}

theorem sameFrame_redirect (old new : String) (n : Node) :
    Nested Graph.SameFrame n (n.redirect old new) :=
  (nested_redirect old new n).mono fun p _ _ heq => heq ▸ Graph.sameFrame_redirectNested p.2 old new

@[simp] theorem innerNames_redirect : (n.redirect old new).innerNames = n.innerNames :=
  (sameFrame_redirect old new n).innerNames_eq fun _ _ same => same.allDefinitions

@[simp] theorem innerNames_rename : (n.rename old new).innerNames = n.innerNames :=
  innerNames_redirect (n := n)

/-- A redirected node reads the images of what it read before. -/
theorem mem_reads_redirect (hold : old ≠ "") (hnew : new ≠ "") (fresh : new ∉ n.innerNames)
    {x : String} :
    x ∈ (n.redirect old new).reads ↔ ∃ y ∈ n.reads, substituteName old new y = x := by
  refine mem_reads_redirect_of hold hnew fun p hp x => ?_
  exact Graph.mem_captures_redirectNested hold hnew fun h =>
    fresh (mem_innerNames.2 ⟨p, hp, h⟩)

end Node

namespace Graph

variable {old new : String} {P : Graph → Prop}

/-- A nested graph that does not capture a name stays as it is. -/
theorem redirectNested_of_not_mem {g : Graph} (h : old ∉ g.captures) :
    g.redirectNested old new = g := by
  unfold redirectNested
  rw [if_neg (by simpa using h)]

/-- What redirecting keeps of a graph it keeps at every depth. -/
theorem Everywhere.redirectNested
    (step : ∀ g, P g → old ∈ g.captures → new ∉ g.allDefinitions → P (g.redirectNested old new))
    {g : Graph} (h : g.Everywhere P) (fresh : new ∉ g.allDefinitions) :
    (g.redirectNested old new).Everywhere P := by
  induction h with
  | @intro g here inside ih =>
      by_cases hcap : old ∈ g.captures
      · refine .intro (step g here hcap fresh) fun m hm p' hp' => ?_
        have hnodes : (g.redirectNested old new).nodes = g.nodes.map (Node.redirect old new) := by
          unfold Graph.redirectNested
          rw [if_pos (by simpa using hcap), replaceUses_eq]
        rw [hnodes] at hm
        obtain ⟨n, hn, rfl⟩ := List.mem_map.1 hm
        obtain ⟨p, hp, heq⟩ := (Node.nested_redirect old new n).exists_left hp'
        rw [heq]
        refine ih n hn p hp fun hi => fresh ?_
        rw [allDefinitions_eq]
        exact List.mem_append_right _
          (mem_innerNames.2 ⟨n, hn, Node.mem_innerNames.2 ⟨p, hp, hi⟩⟩)
      · rw [redirectNested_of_not_mem hcap]
        exact .intro here inside

end Graph

namespace Node

variable {old new : String} {n : Node}

theorem everywhere_redirect {P : Graph → Prop}
    (step : ∀ g : Graph, P g → old ∈ g.captures → new ∉ g.allDefinitions →
      P (g.redirectNested old new))
    (h : ∀ p ∈ n.subgraphs, p.2.Everywhere P) (fresh : new ∉ n.innerNames) :
    ∀ p ∈ (n.redirect old new).subgraphs, p.2.Everywhere P := by
  intro p' hp'
  obtain ⟨p, hp, heq⟩ := (nested_redirect old new n).exists_left hp'
  rw [heq]
  exact (h p hp).redirectNested step fun hi => fresh (mem_innerNames.2 ⟨p, hp, hi⟩)

theorem checkControlFlow_redirect (h : n.checkControlFlow = .ok ()) :
    (n.redirect old new).checkControlFlow = .ok () :=
  (sameFrame_redirect old new n).checkControlFlow (List.length_map _) rfl
    (fun _ _ same => ⟨congrArg List.length same.inputs, same.outputs⟩) h

theorem checkControlFlow_rename (h : n.checkControlFlow = .ok ()) :
    (n.rename old new).checkControlFlow = .ok () := by
  have rel : Nested Graph.SameFrame n (n.rename old new) :=
    (nested_rename old new n).mono fun p _ _ heq =>
      heq ▸ Graph.sameFrame_redirectNested p.2 old new
  exact rel.checkControlFlow (List.length_map _) (List.length_map _)
    (fun _ _ same => ⟨congrArg List.length same.inputs, same.outputs⟩) h

/-- Whether control-flow nodes hold what they need, in a node and at every depth inside. -/
def DeepControlled (n : Node) : Prop :=
  n.checkControlFlow = .ok () ∧ ∀ p ∈ n.subgraphs, p.2.Everywhere Graph.Controlled

theorem controlled_redirectNested {g : Graph} (h : g.Controlled) (hcap : old ∈ g.captures) :
    (g.redirectNested old new).Controlled := by
  unfold Graph.redirectNested
  rw [if_pos (by simpa using hcap), Graph.replaceUses_eq]
  intro m hm
  obtain ⟨n, hn, rfl⟩ := List.mem_map.1 hm
  exact checkControlFlow_redirect (h n hn)

theorem DeepControlled.redirect (h : n.DeepControlled) (fresh : new ∉ n.innerNames) :
    (n.redirect old new).DeepControlled :=
  ⟨checkControlFlow_redirect h.1,
    everywhere_redirect (fun _ hg hcap _ => controlled_redirectNested hg hcap) h.2 fresh⟩

theorem DeepControlled.rename (h : n.DeepControlled) (fresh : new ∉ n.innerNames) :
    (n.rename old new).DeepControlled :=
  ⟨checkControlFlow_rename h.1,
    everywhere_redirect (fun _ hg hcap _ => controlled_redirectNested hg hcap) h.2 fresh⟩

end Node

/-! ## Redirected and renamed graphs -/

namespace Graph

variable {old new : String}

theorem produced_replaceUses (g : Graph) (old new : String) :
    (g.replaceUses old new).produced = g.produced := by
  rw [replaceUses_eq]
  unfold produced
  simp [List.flatMap_map]

theorem innerNames_replaceUses (g : Graph) (old new : String) :
    (g.replaceUses old new).innerNames = g.innerNames := by
  rw [replaceUses_eq]
  unfold innerNames
  simp [List.flatMap_map]

/-- The declaration of a value under its new name. -/
def renameInfo (old new : String) (v : ValueInfo) : ValueInfo :=
  { v with name := substituteName old new v.name }

theorem renameInfo_of_ne {v : ValueInfo} (h : v.name ≠ old) : renameInfo old new v = v := by
  unfold renameInfo
  rw [substituteName_of_ne h]

theorem renameValue_eq (g : Graph) (old new : String) :
    g.renameValue old new =
      { g with
        nodes := g.nodes.map (Node.rename old new)
        initializers := g.initializers.map fun i =>
          { i with name := substituteName old new i.name }
        inputs := g.inputs.map (renameInfo old new)
        outputs := g.outputs.map (renameInfo old new)
        valueInfo := g.valueInfo.map (renameInfo old new) } := by
  unfold renameValue
  rw [replaceUses_eq]
  simp only [List.map_map]
  rfl

theorem produced_renameValue (hold : old ≠ "") (hnew : new ≠ "") (g : Graph) :
    (g.renameValue old new).produced = g.produced.map (substituteName old new) := by
  rw [renameValue_eq]
  unfold produced
  simp [List.flatMap_map, List.map_flatMap, Node.presentOutputs_rename hold hnew]

theorem innerNames_renameValue (g : Graph) (old new : String) :
    (g.renameValue old new).innerNames = g.innerNames := by
  rw [renameValue_eq]
  unfold innerNames
  simp [List.flatMap_map]

/-- A renamed graph defines the images of what it defined before. -/
theorem definedNames_renameValue (hold : old ≠ "") (hnew : new ≠ "") (g : Graph) :
    (g.renameValue old new).definedNames = g.definedNames.map (substituteName old new) := by
  have hp := produced_renameValue hold hnew g
  unfold produced at hp
  rw [definedNames, hp, renameValue_eq, definedNames]
  simp [renameInfo, Function.comp_def]

/-- Renaming a value that a graph defines takes nothing new from outside. -/
theorem captures_renameValue (hold : old ≠ "") (hnew : new ≠ "") {g : Graph}
    (defined : old ∈ g.definedNames) (fresh : new ∉ g.innerNames) {x : String} :
    x ∈ (g.renameValue old new).captures ↔ x ∈ g.captures ∧ x ≠ new := by
  have reads : ∀ n ∈ g.nodes, ∀ x, x ∈ (n.rename old new).reads ↔
      ∃ y ∈ n.reads, substituteName old new y = x := by
    intro n hn x
    rw [Node.reads_rename]
    exact Node.mem_reads_redirect hold hnew fun h => fresh (mem_innerNames.2 ⟨n, hn, h⟩)
  have image : ∀ y, (∃ z ∈ g.definedNames, substituteName old new z = substituteName old new y) ↔
      y ∈ g.definedNames ∨ y = new := by
    intro y
    constructor
    · rintro ⟨z, hz, heq⟩
      by_cases hy : y = old
      · exact Or.inl (hy ▸ defined)
      · rw [substituteName_of_ne hy] at heq
        by_cases hz' : z = old
        · subst hz'
          exact Or.inr (by simpa using heq.symm)
        · rw [substituteName_of_ne hz'] at heq
          exact Or.inl (heq ▸ hz)
    · rintro (hy | rfl)
      · exact ⟨y, hy, rfl⟩
      · refine ⟨old, defined, ?_⟩
        by_cases hy : y = old
        · rw [hy]
        · rw [substituteName_self, substituteName_of_ne hy]
  have keep : ∀ y, y ∉ g.definedNames → substituteName old new y = y := by
    intro y hy
    exact substituteName_of_ne fun h => hy (h ▸ defined)
  rw [mem_captures, mem_captures, definedNames_renameValue hold hnew]
  simp only [renameValue_eq, List.map_map, List.mem_map, Function.comp_apply, renameInfo]
  constructor
  · rintro ⟨⟨_, ⟨n, hn, rfl⟩, hx⟩ | ⟨o, ho, rfl⟩, hx'⟩
    · obtain ⟨y, hy, rfl⟩ := (reads n hn _).1 hx
      obtain ⟨hy', hne⟩ := not_or.1 fun h => hx' ((image y).2 h)
      rw [keep y hy']
      exact ⟨⟨Or.inl ⟨n, hn, hy⟩, hy'⟩, hne⟩
    · obtain ⟨ho', hne⟩ := not_or.1 fun h => hx' ((image o.name).2 h)
      rw [keep _ ho']
      exact ⟨⟨Or.inr ⟨o, ho, rfl⟩, ho'⟩, hne⟩
  · rintro ⟨⟨hx, hx'⟩, hne⟩
    have hno : ¬ ∃ z ∈ g.definedNames, substituteName old new z = x := by
      rw [← keep x hx']
      rw [image]
      exact fun h => h.elim hx' hne
    rcases hx with ⟨n, hn, hx⟩ | ⟨o, ho, rfl⟩
    · exact ⟨Or.inl ⟨_, ⟨n, hn, rfl⟩, (reads n hn x).2 ⟨x, hx, keep x hx'⟩⟩, hno⟩
    · exact ⟨Or.inr ⟨o, ho, keep _ hx'⟩, hno⟩

end Graph
end TensorGraph
