import TensorGraph.Proofs.Graph.Naming
import TensorGraph.Proofs.Graph.Order
import TensorGraph.Proofs.Tensor.Counted

/-!
# Graphs of expressions

Input:

* expressions that are made from earlier ones (`Expressions.WellFormed`), some of them as outputs, and
  a list of inputs in which all inputs that are used occur.

Inputs keep the names that they were given, and all other values get names that differ from each
other, but not from those of the inputs.

Main results:

* `Expressions.buildGraph_realizes` and `Expressions.makeGraph_realizes`: each operator that is used is
  one node, which reads the first outputs of its operands, whatever the inputs are called;
* `Expressions.exists_buildGraph_iff`: when a graph can be built;
* `Expressions.Realizes.validate_eq_ok_iff` and `Expressions.Realizes.sorted`: the graph is valid
  exactly when no node produces a value with the name of an input, and then no node reads what it or a
  later node produces;
* `Expressions.not_validate_of_shadowed`: the name of an input may be that of an output.
-/

namespace TensorGraph

/-! ## The graph of expressions -/

namespace Expressions

variable {es : Expressions} {roots : List Nat} {names : Nat → List String} {g : Graph}

/-- Whether operators hold no nested graphs and need none. -/
def Plain (es : Expressions) : Prop :=
  ∀ (i : Nat) opType attributes operands outputs,
    es[i]? = some (.operator opType attributes operands outputs) →
      opType ≠ "If" ∧ opType ≠ "Loop" ∧ ∀ p ∈ attributes, p.2.graphList = []

/-- What the graph of some expressions is, when the outputs of expressions have the given names. -/
structure Realizes (es : Expressions) (roots : List Nat) (names : Nat → List String) (g : Graph) :
    Prop where
  /-- Each operator that is used is one node, which reads the first outputs of its operands. -/
  nodes : ∃ order : List Nat, order.Nodup ∧
    (∀ i, i ∈ order ↔ es.isOperator i = true ∧ ∃ r ∈ roots, es.Uses r i) ∧
      List.Forall₂ (es.IsNodeOf names) order g.nodes
  /-- Inputs keep their names, constants are stored, and outputs are those of their operators. -/
  named : ∀ r ∈ roots, ∀ i, es.Uses r i → ∀ e, es[i]? = some e → e.Named names g i
  /-- No two constants or outputs of nodes have the same name. -/
  distinct : g.generated.Nodup
  nonempty : "" ∉ g.generated
  inputs : (g.inputs.map ValueInfo.name).Nodup
  /-- A node reads inputs, constants and outputs of nodes before it. -/
  reads : ∀ (k : Nat) n, g.nodes[k]? = some n → ∀ x ∈ n.inputs, x = "" ∨
    x ∈ g.inputs.map ValueInfo.name ∨ x ∈ g.initializers.map Initializer.name ∨
      x ∈ (g.nodes.take k).flatMap Node.outputs
  outputs : ∀ o ∈ g.outputs, o.name ∈ g.inputs.map ValueInfo.name ∨ o.name ∈ g.generated

namespace Realizes

variable (h : es.Realizes roots names g)

include h

theorem produced_eq : g.produced = g.nodes.flatMap Node.outputs := by
  refine List.flatMap_congr fun n hn => List.filter_eq_self.2 fun x hx => ?_
  rw [decide_eq_true_iff]
  rintro rfl
  exact h.nonempty (List.mem_append_right _ (List.mem_flatMap.2 ⟨n, hn, hx⟩))

theorem controlled (plain : es.Plain) {n : Node} (hn : n ∈ g.nodes) :
    n.subgraphs = [] ∧ n.checkControlFlow = .ok () := by
  obtain ⟨order, -, -, stand⟩ := h.nodes
  obtain ⟨i, -, name, opType, attributes, operands, outputs, he, rfl⟩ := exists_left_of_forall₂ stand hn
  obtain ⟨notIf, notLoop, nested⟩ := plain i opType attributes operands outputs he
  refine ⟨GraphBuilder.subgraphs_operatorNode nested, ?_⟩
  simp [Node.checkControlFlow, notIf, notLoop]

theorem mem_reads (plain : es.Plain) {n : Node} (hn : n ∈ g.nodes) {x : String} :
    x ∈ n.reads ↔ x ∈ n.inputs ∧ x ≠ "" := by
  rw [Node.mem_reads, (h.controlled plain hn).1, Node.mem_presentInputs]
  simp

theorem definedNames_eq : g.definedNames = g.inputs.map ValueInfo.name ++ g.generated := by
  rw [Graph.definedNames, Graph.generated, List.append_assoc, ← Graph.produced, h.produced_eq]

/-- What a node reads is defined, and no later node produces it unless it is an input. -/
theorem mem_generated_of_reads {k : Nat} {n : Node} (hn : g.nodes[k]? = some n) {x : String}
    (hx : x ∈ n.inputs) (present : x ≠ "") : x ∈ g.inputs.map ValueInfo.name ∨
      x ∈ g.generated ∧ ∀ m ∈ g.nodes.drop k, x ∉ m.outputs := by
  have split : g.generated = g.initializers.map Initializer.name ++
      ((g.nodes.take k).flatMap Node.outputs ++ (g.nodes.drop k).flatMap Node.outputs) := by
    rw [← List.flatMap_append, List.take_append_drop, Graph.generated]
  have distinct := h.distinct
  rw [split] at distinct ⊢
  obtain ⟨-, later, constants⟩ := List.nodup_append.1 distinct
  obtain ⟨-, -, earlier⟩ := List.nodup_append.1 later
  rcases h.reads k n hn x hx with empty | input | constant | produced
  · exact absurd empty present
  · exact Or.inl input
  · refine Or.inr ⟨List.mem_append_left _ constant, fun m hm out => ?_⟩
    have made := List.mem_flatMap.2 ⟨m, hm, out⟩
    exact constants x constant x (List.mem_append_right _ made) rfl
  · refine Or.inr ⟨List.mem_append_right _ (List.mem_append_left _ produced), fun m hm out => ?_⟩
    exact earlier x produced x (List.mem_flatMap.2 ⟨m, hm, out⟩) rfl

theorem not_mem_captures (plain : es.Plain) (x : String) : x ∉ g.captures := by
  intro hx
  obtain ⟨read, undefined⟩ := Graph.mem_captures.1 hx
  rw [h.definedNames_eq, List.mem_append, not_or] at undefined
  rcases read with ⟨n, hn, hx⟩ | hx
  · obtain ⟨k, hk⟩ := List.getElem?_of_mem hn
    obtain ⟨hx, present⟩ := (h.mem_reads plain hn).1 hx
    rcases h.mem_generated_of_reads hk hx present with input | ⟨made, -⟩
    · exact undefined.1 input
    · exact undefined.2 made
  · obtain ⟨o, ho, rfl⟩ := List.mem_map.1 hx
    exact (h.outputs o ho).elim undefined.1 undefined.2

/-- The names that are defined differ exactly when no node produces a value with the name of an
input.  An input with the name of a constant stands for the constant. -/
theorem nodup_definitions_iff :
    g.definitions.Nodup ↔ ∀ v ∈ g.inputs, v.name ∉ g.produced := by
  have made : (g.initializers.map Initializer.name ++ g.produced).Nodup := by
    rw [h.produced_eq]
    exact h.distinct
  have runtime : (g.runtimeInputs.map ValueInfo.name).Nodup := by
    rw [Graph.runtimeInputs_eq_filter]
    exact h.inputs.sublist (List.filter_sublist.map _)
  obtain ⟨constants, produced, apart⟩ := List.nodup_append.1 made
  rw [Graph.definitions, ← Graph.produced, List.nodup_append, List.nodup_append]
  constructor
  · rintro ⟨-, -, differ⟩ v hv hp
    have notConstant : v.name ∉ g.initializers.map Initializer.name := fun hc =>
      apart _ hc _ hp rfl
    have mem : v.name ∈ g.runtimeInputs.map ValueInfo.name :=
      List.mem_map_of_mem (Graph.mem_runtimeInputs.2 ⟨hv, notConstant⟩)
    exact differ _ (List.mem_append_right _ mem) _ hp rfl
  · intro differ
    refine ⟨⟨constants, runtime, ?_⟩, produced, ?_⟩
    · rintro x hx y hy rfl
      obtain ⟨v, hv, rfl⟩ := List.mem_map.1 hy
      exact (Graph.mem_runtimeInputs.1 hv).2 hx
    · rintro x hx y hy rfl
      rcases List.mem_append.1 hx with hx | hx
      · exact apart x hx x hy rfl
      · obtain ⟨v, hv, rfl⟩ := List.mem_map.1 hx
        exact differ v (Graph.mem_runtimeInputs.1 hv).1 hy

/-- The graph is valid exactly when no node produces a value with the name of an input. -/
theorem validate_eq_ok_iff (plain : es.Plain) :
    g.validate [] = .ok () ↔ ∀ v ∈ g.inputs, v.name ∉ g.produced := by
  have inner : g.innerNames = [] := by
    rw [Graph.innerNames, List.flatMap_eq_nil_iff]
    exact fun n hn => Node.innerNames_eq_nil (h.controlled plain hn).1
  have everywhere : g.Everywhere Graph.Controlled := by
    refine Graph.everywhere_controlled_iff.2 fun n hn => ?_
    obtain ⟨none, control⟩ := h.controlled plain hn
    exact ⟨control, by simp [none]⟩
  rw [Graph.validate_eq_ok_iff, Graph.allDefinitions_eq, inner, List.append_nil,
    h.nodup_definitions_iff]
  constructor
  · exact fun valid => valid.1
  · exact fun apart => ⟨apart, fun x hx => absurd hx (h.not_mem_captures plain x), everywhere⟩

/-- Then no node reads what it or a later node produces. -/
theorem sorted (plain : es.Plain) (apart : ∀ v ∈ g.inputs, v.name ∉ g.produced) :
    Node.Sorted g.nodes := by
  refine Node.sorted_of_getElem? fun k n hk x hx m hm out => ?_
  obtain ⟨hx, present⟩ := (h.mem_reads plain (List.mem_of_getElem? hk)).1 hx
  rcases h.mem_generated_of_reads hk hx present with input | ⟨-, later⟩
  · obtain ⟨v, hv, rfl⟩ := List.mem_map.1 input
    exact apart v hv (Graph.mem_produced.2 ⟨m, List.mem_of_mem_drop hm, out⟩)
  · exact later m hm (Node.mem_presentOutputs.1 out).1

end Realizes

end Expressions

namespace GraphBuilder

variable {es : Expressions} {b : GraphBuilder} {roots : List Nat}

/-- From the start, exactly what the roots use becomes known. -/
theorem Walk.mem_known_iff (walk : Walk es {} roots b) {j : Nat} :
    j ∈ b.known ↔ ∃ r ∈ roots, es.Uses r j := by
  rw [walk.known]
  exact or_iff_right List.not_mem_nil

/-- The graph that is made at the end. -/
theorem Walk.realizes (wf : es.WellFormed) (walk : Walk es {} roots b) {inputs : List ValueInfo}
    {outputs : List String} (distinct : (inputs.map ValueInfo.name).Nodup)
    (listed : ∀ r ∈ roots, ∀ i, es.Uses r i → ∀ name type shape,
      es[i]? = some (.value name type shape) → name ∈ inputs.map ValueInfo.name)
    (used : ∀ x ∈ outputs, ∃ r ∈ roots, x ∈ b.outputsOf r) :
    es.Realizes roots b.outputsOf (b.finish inputs outputs) := by
  have built := Built.of_steps wf walk.steps
  have known := fun j => walk.mem_known_iff (j := j)
  have input : ∀ x, x ∈ b.values.map ValueInfo.name → x ∈ inputs.map ValueInfo.name := by
    intro x hx
    obtain ⟨i, hi, type, shape, he⟩ := (built.values x).1 hx
    obtain ⟨r, hr, uses⟩ := (known i).1 hi
    exact listed r hr i uses x type shape he
  exact {
    nodes := by
      refine ⟨b.known.reverse.filter es.isOperator, ?_, fun i => ?_, built.nodes⟩
      · exact (List.nodup_reverse.2 built.nodup).filter _
      · rw [List.mem_filter, List.mem_reverse, known, and_comm]
    named := fun r hr i uses e he => built.named i ((known i).2 ⟨r, hr, uses⟩) e he
    distinct := built.fresh.distinct
    nonempty := built.fresh.nonempty
    inputs := distinct
    reads := fun k n hn x hx => (built.reads k n hn x hx).imp_right fun h => h.imp_left (input x)
    outputs := by
      intro o ho
      obtain ⟨x, hx, rfl⟩ := List.mem_map.1 ho
      obtain ⟨r, hr, hx⟩ := used x hx
      exact (built.visible r ((known r).2 ⟨r, hr, .refl⟩) x hx).imp_left (input x) }

theorem name_of_value? {x : String} {v : ValueInfo} (h : b.value? x = some v) : v.name = x := by
  simpa using List.find?_some h

theorem isSome_value? {x : String} : (b.value? x).isSome ↔ x ∈ b.values.map ValueInfo.name := by
  simp [value?, List.find?_isSome]

theorem names_outputs_finish (b : GraphBuilder) (inputs : List ValueInfo) (outputs : List String) :
    (b.finish inputs outputs).outputs.map ValueInfo.name = outputs := by
  simp [finish, Function.comp_def]

theorem names_inputs (b : GraphBuilder) (names : List String) :
    (names.filterMap b.value?).map ValueInfo.name = names.filter fun x => (b.value? x).isSome := by
  induction names with
  | nil => rfl
  | cons x rest ih =>
      cases hv : b.value? x with
      | none => simp [hv, ih]
      | some v => simp [hv, ih, name_of_value? hv]

end GraphBuilder

namespace Expressions

variable {es : Expressions} {root : Nat} {g : Graph}

/-- A graph is built when each name that is listed is that of an input that was met. -/
theorem buildGraph_eq_ok_iff {inputs : List String} : es.buildGraph root inputs = .ok g ↔
    ∃ vs, List.Forall₂ (fun x v => (GraphBuilder.emit es {} root).1.value? x = some v) inputs vs ∧
      (GraphBuilder.emit es {} root).1.finish vs (GraphBuilder.emit es {} root).2 = g := by
  have lookup : ∀ x v, (((GraphBuilder.emit es {} root).1.value? x).elim
      (.error (.unknownInput x)) .ok : Except ExpressionFault ValueInfo) = .ok v ↔
        (GraphBuilder.emit es {} root).1.value? x = some v := by
    intro x v
    cases (GraphBuilder.emit es {} root).1.value? x <;> simp
  have steps : es.buildGraph root inputs = (inputs.mapM fun x =>
      (((GraphBuilder.emit es {} root).1.value? x).elim (.error (.unknownInput x)) .ok :
        Except ExpressionFault ValueInfo)) >>= fun vs =>
      .ok ((GraphBuilder.emit es {} root).1.finish vs (GraphBuilder.emit es {} root).2) := by
    unfold buildGraph
    dsimp only
    congr 2
    funext x
    cases (GraphBuilder.emit es {} root).1.value? x <;> rfl
  rw [steps]
  constructor
  · intro done
    cases hm : inputs.mapM fun x => (((GraphBuilder.emit es {} root).1.value? x).elim
        (.error (.unknownInput x)) .ok : Except ExpressionFault ValueInfo) with
    | error e =>
        rw [hm] at done
        cases done
    | ok vs =>
        rw [hm] at done
        exact ⟨vs, (mapM_eq_ok_iff.1 hm).imp fun x v => (lookup x v).1, Except.ok.inj done⟩
  · rintro ⟨vs, found, rfl⟩
    rw [mapM_eq_ok_iff.2 (found.imp fun x v => (lookup x v).2)]
    rfl

theorem closed_start (es : Expressions) : es.Closed (GraphBuilder.known {}) := by
  simp [GraphBuilder.known, Closed]

/-- A graph can be built exactly when each name that is listed is that of an input that is used. -/
theorem exists_buildGraph_iff (wf : es.WellFormed) (inside : root < es.size)
    {inputs : List String} : (∃ g, es.buildGraph root inputs = .ok g) ↔
      ∀ x ∈ inputs, ∃ i, es.Uses root i ∧ ∃ type shape, es[i]? = some (.value x type shape) := by
  obtain ⟨walk, -⟩ := GraphBuilder.emit_eq wf inside {} (closed_start es)
  have built := GraphBuilder.Built.of_steps wf walk.steps
  have met : ∀ x, ((GraphBuilder.emit es {} root).1.value? x).isSome ↔
      ∃ i, es.Uses root i ∧ ∃ type shape, es[i]? = some (.value x type shape) := by
    intro x
    rw [GraphBuilder.isSome_value?, built.values]
    simp only [walk.mem_known_iff, List.mem_singleton, exists_eq_left]
  simp only [← met]
  constructor
  · rintro ⟨g, h⟩ x hx
    obtain ⟨vs, found, -⟩ := buildGraph_eq_ok_iff.1 h
    obtain ⟨v, -, hv⟩ := exists_right_of_forall₂ found hx
    exact Option.isSome_of_eq_some hv
  · intro all
    have found : ∃ vs, List.Forall₂ (fun x v =>
        (GraphBuilder.emit es {} root).1.value? x = some v) inputs vs := by
      induction inputs with
      | nil => exact ⟨[], .nil⟩
      | cons x rest ih =>
          obtain ⟨vs, found⟩ := ih fun y hy => all y (List.mem_cons_of_mem _ hy)
          obtain ⟨v, hv⟩ := Option.isSome_iff_exists.1 (all x List.mem_cons_self)
          exact ⟨v :: vs, .cons hv found⟩
    obtain ⟨vs, found⟩ := found
    exact ⟨_, buildGraph_eq_ok_iff.2 ⟨vs, found, rfl⟩⟩

/-- The graph of one expression, when all inputs that it uses are listed. -/
theorem buildGraph_realizes (wf : es.WellFormed) (inside : root < es.size) {inputs : List String}
    (distinct : inputs.Nodup)
    (listed : ∀ i, es.Uses root i → ∀ name type shape,
      es[i]? = some (.value name type shape) → name ∈ inputs)
    (h : es.buildGraph root inputs = .ok g) :
    ∃ names, es.Realizes [root] names g ∧ g.inputs.map ValueInfo.name = inputs ∧
      g.outputs.map ValueInfo.name = names root := by
  obtain ⟨walk, outputs⟩ := GraphBuilder.emit_eq wf inside {} (closed_start es)
  obtain ⟨vs, found, rfl⟩ := buildGraph_eq_ok_iff.1 h
  have named : vs.map ValueInfo.name = inputs :=
    (eq_map_of_forall₂ (found.flip.imp fun v x hv => (GraphBuilder.name_of_value? hv).symm)).symm
  refine ⟨_, walk.realizes wf (by rwa [named]) ?_ ?_, named, ?_⟩
  · intro r hr i uses name type shape he
    cases List.mem_singleton.1 hr
    rw [named]
    exact listed i uses name type shape he
  · intro x hx
    exact ⟨root, List.mem_singleton_self _, outputs ▸ hx⟩
  · rw [GraphBuilder.names_outputs_finish, outputs]

theorem makeGraph_eq (es : Expressions) (inputs outputs : List Nat) :
    es.makeGraph inputs outputs =
      let r := GraphBuilder.emitAll es {} outputs
      let r' := GraphBuilder.emitAll es r.1 inputs
      r'.1.finish (r'.2.filterMap r'.1.value?) r.2 :=
  rfl

theorem nodup_eraseDups {α : Type} [BEq α] [LawfulBEq α] (l : List α) : l.eraseDups.Nodup := by
  induction h : l.length using Nat.strongRecOn generalizing l with
  | ind n ih =>
      cases l with
      | nil => exact List.nodup_nil
      | cons a rest =>
          rw [List.eraseDups_cons]
          refine List.nodup_cons.2 ⟨fun hmem => ?_, ih _ ?_ _ rfl⟩
          · simpa using (List.mem_filter.1 (List.mem_eraseDups.1 hmem)).2
          · rw [← h]
            exact Nat.lt_succ_of_le (List.length_filter_le _ _)

/-- The graph of several outputs, when all inputs that are used are listed. -/
theorem makeGraph_realizes (wf : es.WellFormed) {inputs outputs : List Nat}
    (inside : ∀ i ∈ outputs ++ inputs, i < es.size)
    (listed : ∀ r ∈ outputs ++ inputs, ∀ i, es.Uses r i → ∀ name type shape,
      es[i]? = some (.value name type shape) →
        ∃ k ∈ inputs, ∃ type shape, es[k]? = some (.value name type shape)) :
    ∃ names, es.Realizes (outputs ++ inputs) names (es.makeGraph inputs outputs) ∧
      (es.makeGraph inputs outputs).outputs.map ValueInfo.name =
        (outputs.flatMap names).eraseDups := by
  obtain ⟨first, outputNames⟩ := GraphBuilder.emitAll_eq wf
    (fun i hi => inside i (List.mem_append_left _ hi)) (closed_start es)
  obtain ⟨second, inputNames⟩ := GraphBuilder.emitAll_eq wf
    (fun i hi => inside i (List.mem_append_right _ hi)) (first.closed (closed_start es))
  rw [makeGraph_eq]
  dsimp only
  generalize GraphBuilder.emitAll es {} outputs = r at *
  generalize GraphBuilder.emitAll es r.1 inputs = r' at *
  have walk := first.append second
  have built := GraphBuilder.Built.of_steps wf walk.steps
  -- the names of the outputs stay while the inputs are emitted
  have kept : outputs.flatMap r.1.outputsOf = outputs.flatMap r'.1.outputsOf :=
    List.flatMap_congr fun i hi =>
      (GraphBuilder.outputsOf_of_steps second.steps (first.mem_known hi)).2.symm
  rw [kept] at outputNames
  refine ⟨r'.1.outputsOf, walk.realizes wf ?_ ?_ ?_, ?_⟩
  · rw [GraphBuilder.names_inputs, inputNames]
    exact (nodup_eraseDups _).filter _
  · intro r hr i uses name type shape he
    obtain ⟨k, hk, type', shape', hv⟩ := listed r hr i uses name type shape he
    have known : k ∈ r'.1.known := walk.mem_known (List.mem_append_right _ hk)
    have named : r'.1.outputsOf k = [name] := built.named k known _ hv
    rw [GraphBuilder.names_inputs, List.mem_filter, GraphBuilder.isSome_value?, inputNames,
      List.mem_eraseDups, List.mem_flatMap]
    exact ⟨⟨k, hk, named ▸ List.mem_singleton_self name⟩,
      (built.values name).2 ⟨k, known, type', shape', hv⟩⟩
  · intro x hx
    rw [outputNames, List.mem_eraseDups] at hx
    obtain ⟨i, hi, hx⟩ := List.mem_flatMap.1 hx
    exact ⟨i, List.mem_append_left _ hi, hx⟩
  · rw [GraphBuilder.names_outputs_finish, outputNames]

/-! ## Inputs with the name of an output -/

/-- An operator on an input with the name that the operator's output gets. -/
def shadowed (opType : String) : Expressions :=
  #[.value (opType ++ "_out") none none, .operator opType [] [some 0] 1]

theorem getElem?_shadowed {opType : String} {i : Nat} {e : Expression}
    (h : (shadowed opType)[i]? = some e) :
    i = 0 ∧ e = .value (opType ++ "_out") none none ∨
      i = 1 ∧ e = .operator opType [] [some 0] 1 := by
  cases i with
  | zero => exact Or.inl ⟨rfl, (Option.some.inj h).symm⟩
  | succ i =>
      cases i with
      | zero => exact Or.inr ⟨rfl, (Option.some.inj h).symm⟩
      | succ i => cases h

theorem wellFormed_shadowed (opType : String) : (shadowed opType).WellFormed := by
  constructor
  · intro i e he j hj
    rcases getElem?_shadowed he with ⟨rfl, rfl⟩ | ⟨rfl, rfl⟩
    · cases hj
    · cases List.mem_singleton.1 hj
      exact Nat.zero_lt_one
  · intro i opType' attributes operands outputs he j hj
    rcases getElem?_shadowed he with ⟨rfl, he⟩ | ⟨rfl, he⟩
    · cases he
    · cases he
      cases List.mem_singleton.1 hj
      exact Nat.zero_lt_one
  · intro i operator index he
    rcases getElem?_shadowed he with ⟨-, he⟩ | ⟨-, he⟩ <;> cases he

theorem snd_emit_shadowed (opType : String) :
    (GraphBuilder.emit (shadowed opType) {} 1).2 = [opType ++ "_out"] := by
  have input : GraphBuilder.emit (shadowed opType) {} 0 =
      (GraphBuilder.add {} 0 (.value (opType ++ "_out") none none), [opType ++ "_out"]) := by
    rw [GraphBuilder.emit]
    rfl
  have unknown : 1 ∉ GraphBuilder.known {} := List.not_mem_nil
  rw [GraphBuilder.emit_operator unknown rfl (by simp)]
  simp only [GraphBuilder.emitOperands, input]
  rfl

/-- Inputs are not kept apart from the values that are made, so the graph may define a name twice. -/
theorem not_validate_of_shadowed (opType : String) :
    ∃ g, (shadowed opType).buildGraph 1 [opType ++ "_out"] = .ok g ∧ g.validate [] ≠ .ok () := by
  have wf := wellFormed_shadowed opType
  have inside : 1 < (shadowed opType).size := Nat.one_lt_two
  have uses : (shadowed opType).Uses 1 0 := .single ⟨_, rfl, List.mem_cons_self⟩
  have used : ∀ x ∈ [opType ++ "_out"], ∃ i, (shadowed opType).Uses 1 i ∧
      ∃ type shape, (shadowed opType)[i]? = some (.value x type shape) := by
    intro x hx
    cases List.mem_singleton.1 hx
    exact ⟨0, uses, none, none, rfl⟩
  obtain ⟨g, h⟩ := (exists_buildGraph_iff wf inside).2 used
  obtain ⟨names, realizes, inputs, outputs⟩ :=
    buildGraph_realizes wf inside (List.nodup_singleton _) (fun i _ name type shape he => by
      rcases getElem?_shadowed he with ⟨-, he⟩ | ⟨-, he⟩ <;> cases he
      exact List.mem_singleton_self _) h
  have named : names 1 = [opType ++ "_out"] := by
    obtain ⟨vs, -, rfl⟩ := buildGraph_eq_ok_iff.1 h
    rw [← outputs, GraphBuilder.names_outputs_finish, snd_emit_shadowed]
  have produced : opType ++ "_out" ∈ g.produced := by
    obtain ⟨order, -, operators, stand⟩ := realizes.nodes
    have mem : 1 ∈ order := (operators 1).2 ⟨rfl, 1, List.mem_singleton_self 1, .refl⟩
    obtain ⟨n, hn, name, opType', attributes, operands, count, -, rfl⟩ :=
      exists_right_of_forall₂ stand mem
    rw [realizes.produced_eq, List.mem_flatMap]
    refine ⟨_, hn, ?_⟩
    rw [GraphBuilder.outputs_operatorNode, named]
    exact List.mem_singleton_self _
  obtain ⟨v, hv, name⟩ : ∃ v ∈ g.inputs, v.name = opType ++ "_out" :=
    List.mem_map.1 (inputs ▸ List.mem_singleton_self _)
  refine ⟨g, h, fun valid => ?_⟩
  have nodup := (Graph.validate_eq_ok_iff.1 valid).1
  rw [Graph.allDefinitions_eq] at nodup
  exact realizes.nodup_definitions_iff.1 (List.nodup_append.1 nodup).1 v hv (name ▸ produced)

end Expressions
end TensorGraph
