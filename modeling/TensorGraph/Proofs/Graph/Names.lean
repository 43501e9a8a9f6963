import TensorGraph.Graph.Reads
import TensorGraph.Graph.Validity

/-!
# Names in a graph

Input:

* a graph with nested graphs at any depth.

Results:

* what a node reads and what a graph captures, as membership;
* the names that a graph defines at all depths, as one list `Graph.allDefinitions`;
* induction over nested graphs, and predicates that hold at every depth (`Graph.Everywhere`).
-/

namespace TensorGraph

/-! ## Reading -/

namespace Node

theorem mem_presentInputs {n : Node} {x : String} :
    x ∈ n.presentInputs ↔ x ∈ n.inputs ∧ x ≠ "" := by
  simp [presentInputs]

theorem mem_presentOutputs {n : Node} {x : String} :
    x ∈ n.presentOutputs ↔ x ∈ n.outputs ∧ x ≠ "" := by
  simp [presentOutputs]

/-- A node reads its inputs and what its nested graphs take from outside. -/
theorem mem_reads {n : Node} {x : String} :
    x ∈ n.reads ↔ x ∈ n.presentInputs ∨ ∃ p ∈ n.subgraphs, x ∈ p.2.captures := by
  rw [reads]
  simp only [List.mem_append, List.mem_eraseDups, List.mem_filter, List.mem_flatMap,
    List.mem_attach, true_and, Subtype.exists]
  constructor
  · rintro (h | ⟨⟨p, hp, hx⟩, -⟩)
    · exact Or.inl h
    · exact Or.inr ⟨p, hp, hx⟩
  · rintro (h | ⟨p, hp, hx⟩)
    · exact Or.inl h
    · by_cases h : x ∈ n.presentInputs
      · exact Or.inl h
      · exact Or.inr ⟨⟨p, hp, hx⟩, by rw [List.contains_eq_mem, decide_eq_false h]; rfl⟩

/-- The node that copies a value. -/
def copying (source target : String) : Node :=
  { opType := "Identity", inputs := [source], outputs := [target] }

theorem presentOutputs_copying {x y : String} (hy : y ≠ "") : (copying x y).presentOutputs = [y] := by
  simp [presentOutputs, copying, hy]

theorem mem_reads_copying {x y z : String} : z ∈ (copying x y).reads ↔ z = x ∧ z ≠ "" := by
  rw [mem_reads, mem_presentInputs]
  simp [copying, subgraphs]

/-- Setting an attribute to a value without graphs takes no other graph in. -/
theorem subgraphs_setAttribute {n : Node} (name : String) (value : AttributeValue)
    (hv : value.graphList = []) : (n.setAttribute name value).subgraphs.Sublist n.subgraphs := by
  unfold subgraphs setAttribute
  simp only
  induction n.attributes with
  | nil => simp [setAttributeIn, hv]
  | cons a rest ih =>
      unfold setAttributeIn
      split
      · simp [hv]
      · exact (List.Sublist.refl _).append ih

end Node

namespace Graph

/-- The names of the outputs of the nodes. -/
def produced (g : Graph) : List String := g.nodes.flatMap Node.presentOutputs

theorem mem_produced {g : Graph} {x : String} :
    x ∈ g.produced ↔ ∃ n ∈ g.nodes, x ∈ n.presentOutputs := by
  simp [produced, List.mem_flatMap]

theorem mem_definedNames {g : Graph} {x : String} :
    x ∈ g.definedNames ↔
      x ∈ g.inputs.map ValueInfo.name ∨ x ∈ g.initializers.map Initializer.name ∨
        x ∈ g.produced := by
  simp only [definedNames, produced, List.mem_append, or_assoc]

/-- A graph captures what it reads, or gives as an output, and does not define. -/
theorem mem_captures {g : Graph} {x : String} :
    x ∈ g.captures ↔
      ((∃ n ∈ g.nodes, x ∈ n.reads) ∨ x ∈ g.outputs.map ValueInfo.name) ∧
        x ∉ g.definedNames := by
  rw [captures]
  simp only [List.mem_eraseDups, List.mem_filter, List.mem_append, List.mem_flatMap,
    List.contains_eq_mem, Bool.not_eq_true', decide_eq_false_iff_not]

theorem reads_subset {g : Graph} {n : Node} {x : String} (hn : n ∈ g.nodes) (hx : x ∈ n.reads) :
    x ∈ g.definedNames ∨ x ∈ g.captures := by
  by_cases h : x ∈ g.definedNames
  · exact Or.inl h
  · exact Or.inr (mem_captures.2 ⟨Or.inl ⟨n, hn, hx⟩, h⟩)

theorem isSome_initializer? {g : Graph} {x : String} :
    (g.initializer? x).isSome ↔ x ∈ g.initializers.map Initializer.name := by
  simp [initializer?, List.find?_isSome]

theorem isNone_initializer? {g : Graph} {x : String} :
    (g.initializer? x).isNone ↔ x ∉ g.initializers.map Initializer.name := by
  rw [← isSome_initializer?]
  cases g.initializer? x <;> simp

theorem mem_runtimeInputs {g : Graph} {v : ValueInfo} :
    v ∈ g.runtimeInputs ↔ v ∈ g.inputs ∧ v.name ∉ g.initializers.map Initializer.name := by
  rw [runtimeInputs, List.mem_filter, isNone_initializer?]

/-- The inputs that need a value from outside are those without an initializer. -/
theorem runtimeInputs_eq_filter (g : Graph) :
    g.runtimeInputs = g.inputs.filter fun v => v.name ∉ g.initializers.map Initializer.name := by
  refine List.filter_congr fun v _ => ?_
  rw [Bool.eq_iff_iff, isNone_initializer?, decide_eq_true_iff]

/-- The checked definitions are the defined names. -/
theorem mem_definitions {g : Graph} {x : String} :
    x ∈ g.definitions ↔ x ∈ g.definedNames := by
  rw [mem_definedNames, definitions]
  simp only [List.mem_append, List.mem_map, mem_runtimeInputs]
  constructor
  · rintro ((h | ⟨v, ⟨hv, -⟩, rfl⟩) | h)
    · exact Or.inr (Or.inl h)
    · exact Or.inl ⟨v, hv, rfl⟩
    · exact Or.inr (Or.inr h)
  · rintro (⟨v, hv, rfl⟩ | h | h)
    · by_cases hi : v.name ∈ g.initializers.map Initializer.name
      · exact Or.inl (Or.inl (List.mem_map.1 hi))
      · exact Or.inl (Or.inr ⟨v, ⟨hv, fun h => hi (List.mem_map.2 h)⟩, rfl⟩)
    · exact Or.inl (Or.inl h)
    · exact Or.inr h

/-- A constant with a new name stands at the end. -/
theorem setInitializerIn_of_not_mem {name : String} {is : List Initializer}
    (h : name ∉ is.map Initializer.name) (value : Tensor) :
    setInitializerIn name value is = is ++ [⟨name, value⟩] := by
  induction is with
  | nil => rfl
  | cons i rest ih =>
      simp only [List.map_cons, List.mem_cons, not_or] at h
      rw [setInitializerIn, if_neg (Ne.symm h.1), ih h.2]
      rfl

/-! ## Every depth -/

/-- A property holds of a graph when it follows from the property of its nested graphs. -/
theorem nested_induction
    {P : Graph → Prop}
    (step : ∀ g, (∀ n ∈ g.nodes, ∀ p ∈ n.subgraphs, P p.2) → P g) :
    ∀ g, P g := by
  intro g
  induction h : sizeOf g using Nat.strongRecOn generalizing g with
  | ind size ih =>
      subst h
      exact step g fun n hn p hp => ih _ (sizeOf_nested hn hp) _ rfl

/-- A property of a graph and of all graphs nested in it. -/
inductive Everywhere (P : Graph → Prop) : Graph → Prop
  | intro {g : Graph} (here : P g)
      (inside : ∀ n ∈ g.nodes, ∀ p ∈ n.subgraphs, Everywhere P p.2) : Everywhere P g

namespace Everywhere

variable {P Q : Graph → Prop} {g : Graph}

theorem here (h : Everywhere P g) : P g := by
  cases h with
  | intro here inside => exact here

theorem inside (h : Everywhere P g) {n : Node} (hn : n ∈ g.nodes) {p : String × Graph}
    (hp : p ∈ n.subgraphs) : Everywhere P p.2 := by
  cases h with
  | intro here inside => exact inside n hn p hp

theorem mono (h : Everywhere P g) (imp : ∀ g, P g → Q g) : Everywhere Q g := by
  induction h with
  | intro here _ ih => exact .intro (imp _ here) ih

end Everywhere

/-! ## Definitions at every depth -/

/-- The names that a graph and its nested graphs define, in the order in which they are checked. -/
def allDefinitions (g : Graph) : List String :=
  g.definitions ++
    g.nodes.attach.flatMap fun ⟨n, _node⟩ =>
      n.subgraphs.attach.flatMap fun ⟨p, _inside⟩ => p.2.allDefinitions
termination_by sizeOf g
decreasing_by exact sizeOf_nested _node _inside

end Graph

/-- The names that the nested graphs of a node define. -/
def Node.innerNames (n : Node) : List String := n.subgraphs.flatMap fun p => p.2.allDefinitions

namespace Graph

/-- The names that the nested graphs define. -/
def innerNames (g : Graph) : List String := g.nodes.flatMap Node.innerNames

theorem allDefinitions_eq (g : Graph) : g.allDefinitions = g.definitions ++ g.innerNames := by
  rw [allDefinitions]
  unfold innerNames Node.innerNames
  simp only [List.flatMap_subtype, List.unattach_attach]

theorem mem_innerNames {g : Graph} {x : String} :
    x ∈ g.innerNames ↔ ∃ n ∈ g.nodes, x ∈ n.innerNames := by
  simp [innerNames, List.mem_flatMap]

end Graph

namespace Node

theorem mem_innerNames {n : Node} {x : String} :
    x ∈ n.innerNames ↔ ∃ p ∈ n.subgraphs, x ∈ p.2.allDefinitions := by
  simp [innerNames, List.mem_flatMap]

theorem innerNames_eq_nil {n : Node} (h : n.subgraphs = []) : n.innerNames = [] := by
  simp [innerNames, h]

end Node

end TensorGraph
