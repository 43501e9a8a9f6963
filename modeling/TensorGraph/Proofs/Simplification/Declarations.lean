import Mathlib
import TensorGraph.Proofs.Facts.Inference
import TensorGraph.Proofs.Simplification.Fixpoint

/-!
# Declarations that follow from inference

Input:

* a valid graph whose nodes can be ordered, and the facts that are inferred for it.

Algorithm:

* an output of a node is declared as it is known, and an output of the graph is filled in where it
  says nothing at all;
* so each declaration gives what is known again (`Facts.foldl_refine_fills`), if an output of the
  graph is declared nowhere else.  What is declared of it elsewhere is taken out.

Main results:

* `Graph.updateDeclarations_stable`: then the updated graph has the same facts, and updating it
  again changes nothing;
* `Graph.updateDeclarations_twice_stable`: every graph has such declarations once it was updated;
* `Graph.infer_forgets_declaredTwice`: the first update of a graph can take out what is known of an
  output.
-/

namespace TensorGraph
namespace Graph

variable {version : Option Int64} {g : Graph} {outer facts : Scope Facts} {order : List Nat}
  {x : String}

/-! ## Updated graphs -/

/-- The nodes in the order in which they are visited. -/
theorem map_val_evaluationOrder (ho : g.topologicalOrder = .ok order) :
    g.evaluationOrder.map Subtype.val = order.filterMap fun i => g.nodes[i]? := by
  unfold evaluationOrder
  rw [ho]
  dsimp only
  rw [List.map_filterMap]
  refine List.filterMap_congr fun i _ => ?_
  split
  next h =>
    rw [List.getElem?_eq_getElem h]
    rfl
  next h =>
    rw [List.getElem?_eq_none (by omega)]
    rfl

/-- The names of the outputs of nodes, in an order of the nodes. -/
def outputsIn (g : Graph) (order : List Nat) : List String :=
  (order.filterMap fun i => g.nodes[i]?).flatMap Node.presentOutputs

/-- The graph in which the values with some names are declared as they are known. -/
def redeclared (g : Graph) (facts : Scope Facts) (names : List String) : Graph :=
  { g with
    valueInfo := names.filterMap (g.updatedDeclaration? facts)
    outputs := g.outputs.map (fillDeclaration facts) }

theorem updateDeclarations_eq (ho : g.topologicalOrder = .ok order) (facts : Scope Facts) :
    g.updateDeclarations facts = .ok (g.redeclared facts (g.outputsIn order)) := by
  unfold updateDeclarations
  rw [ho]
  rfl

/-- A declaration that is found by name is one of the declarations with this name. -/
theorem mem_of_declared {vs : List ValueInfo} {v : ValueInfo}
    (h : (Scope.ofBindings (vs.map fun v => (v.name, v))).get? x = some v) :
    v ∈ vs ∧ v.name = x := by
  obtain ⟨before, after, split, -⟩ := List.lookup_eq_some_iff.1 h
  have mem : (x, v) ∈ Scope.ofBindings (vs.map fun v => (v.name, v)) := by
    rw [split]
    simp
  obtain ⟨u, hu, same⟩ := List.mem_map.1 (List.mem_reverse.1 mem)
  cases same
  exact ⟨hu, rfl⟩

theorem name_ne_of_not_declared {vs : List ValueInfo}
    (h : (Scope.ofBindings (vs.map fun v => (v.name, v))).get? x = none) :
    ∀ v ∈ vs, v.name ≠ x := by
  rintro v hv rfl
  have apart := List.lookup_eq_none_iff.1 h (v.name, v)
    (List.mem_reverse.2 (List.mem_map_of_mem (f := fun v => (v.name, v)) hv))
  simp at apart

theorem name_fillDeclaration (facts : Scope Facts) (v : ValueInfo) :
    (fillDeclaration facts v).name = v.name := (fillDeclaration_spec facts v).1

theorem name_of_updatedDeclaration? {v : ValueInfo}
    (h : g.updatedDeclaration? facts x = some v) : v.name = x := by
  unfold updatedDeclaration? at h
  split at h
  · cases h
  · split at h
    · cases h
      rfl
    · exact (mem_of_declared h).2

theorem updatedDeclaration?_of_isOutput (h : g.isOutput x = true) :
    g.updatedDeclaration? facts x = none := by
  simp [updatedDeclaration?, h]

/-- Which outputs a graph has does not depend on how they are declared. -/
theorem isOutput_redeclared (names : List String) :
    (g.redeclared facts names).isOutput x = g.isOutput x := by
  simp [isOutput, redeclared, List.any_map, Function.comp_def, name_fillDeclaration]

/-! ## Declarations of one value -/

theorem filter_filterMap_of_nodup {f : String → Option ValueInfo} {names : List String}
    (nodup : names.Nodup) (named : ∀ y v, f y = some v → v.name = y) (hx : x ∈ names) :
    (names.filterMap f).filter (fun v => v.name = x) = (f x).toList := by
  have none : ∀ ys : List String, x ∉ ys → (ys.filterMap f).filter (fun v => v.name = x) = [] := by
    intro ys hys
    rw [List.filter_eq_nil_iff]
    intro v hv
    obtain ⟨y, hy, found⟩ := List.mem_filterMap.1 hv
    have name := named y v found
    rw [decide_eq_true_iff]
    rintro rfl
    exact hys (name ▸ hy)
  obtain ⟨before, after, rfl⟩ := List.append_of_mem hx
  have apart : x ∉ before ∧ x ∉ after := by
    rw [List.nodup_append, List.nodup_cons] at nodup
    exact ⟨fun h => nodup.2.2 x h x List.mem_cons_self rfl, nodup.2.1.1⟩
  rw [List.filterMap_append, List.filter_append, none before apart.1, List.nil_append]
  cases found : f x with
  | none => rw [List.filterMap_cons_none found, none after apart.2, Option.toList_none]
  | some v =>
      have name := named x v found
      rw [List.filterMap_cons_some found, List.filter_cons, if_pos (decide_eq_true name),
        none after apart.2, Option.toList_some]

/-- An output of the graph is declared once more than it was, filled in. -/
theorem declarations_redeclared_of_isOutput {names : List String} (h : g.isOutput x = true)
    (apart : ∀ v ∈ g.valueInfo, v.name ≠ x) :
    (g.redeclared facts names).declarations x = (g.declarations x).map (fillDeclaration facts) := by
  have values : g.valueInfo.filter (fun v => v.name = x) = [] := by
    rw [List.filter_eq_nil_iff]
    intro v hv
    simpa using apart v hv
  have values' :
      (names.filterMap (g.updatedDeclaration? facts)).filter (fun v => v.name = x) = [] := by
    rw [List.filter_eq_nil_iff]
    intro v hv
    obtain ⟨y, -, found⟩ := List.mem_filterMap.1 hv
    have name := name_of_updatedDeclaration? found
    rw [decide_eq_true_iff]
    rintro rfl
    rw [← name, updatedDeclaration?_of_isOutput h] at found
    cases found
  unfold declarations redeclared
  dsimp only
  rw [List.filter_append, List.filter_append, values, values', List.nil_append, List.nil_append,
    List.filter_map]
  simp [Function.comp_def, name_fillDeclaration]

/-- Another value is declared as it is known, and nowhere else. -/
theorem declarations_redeclared_of_not_isOutput {names : List String} (nodup : names.Nodup)
    (hx : x ∈ names) (h : g.isOutput x = false) :
    (g.redeclared facts names).declarations x = (g.updatedDeclaration? facts x).toList := by
  have outputs : (g.outputs.map (fillDeclaration facts)).filter (fun v => v.name = x) = [] := by
    rw [List.filter_eq_nil_iff]
    intro v hv
    obtain ⟨o, ho, rfl⟩ := List.mem_map.1 hv
    rw [name_fillDeclaration, decide_eq_true_iff]
    rintro rfl
    have output : g.isOutput o.name = true := List.any_eq_true.2 ⟨o, ho, beq_self_eq_true _⟩
    rw [h] at output
    cases output
  unfold declarations redeclared
  dsimp only
  rw [List.filter_append, outputs, List.append_nil]
  exact filter_filterMap_of_nodup nodup (fun _ _ => name_of_updatedDeclaration?) hx

/-! ## What updated declarations make of a value -/

variable {f a : Facts}

theorem fills_fillDeclaration {v : ValueInfo} (h : facts.get? v.name = some f) :
    f.Fills v (fillDeclaration facts v) := by
  unfold fillDeclaration
  rw [h]
  exact ⟨rfl, rfl⟩

theorem foldl_refine_of_isOutput {names : List String} (h : g.isOutput x = true)
    (apart : ∀ v ∈ g.valueInfo, v.name ≠ x) (known : facts.get? x = some f)
    (total : (g.declarations x).foldl Facts.refine a = f) :
    ((g.redeclared facts names).declarations x).foldl Facts.refine a = f := by
  rw [declarations_redeclared_of_isOutput h apart]
  refine Facts.foldl_refine_fills (List.forall₂_map_right_iff.2 (List.forall₂_same.2 ?_)) (.refl a)
    (total ▸ Facts.below_foldl_refine _ a) total
  intro v hv
  have name : v.name = x := of_decide_eq_true (List.mem_filter.1 hv).2
  exact fills_fillDeclaration (name ▸ known)

theorem foldl_refine_of_not_isOutput {names : List String} (nodup : names.Nodup) (hx : x ∈ names)
    (h : g.isOutput x = false) (free : g.initializer? x = none) (known : facts.get? x = some f)
    (total : (g.declarations x).foldl Facts.refine a = f) :
    ((g.redeclared facts names).declarations x).foldl Facts.refine a = f := by
  rw [declarations_redeclared_of_not_isOutput nodup hx h]
  have below : a.Below f := total ▸ Facts.below_foldl_refine _ a
  cases told : f.type.isSome || f.shape.isSome with
  | true =>
      have declared : g.updatedDeclaration? facts x =
          some { name := x, type := f.type, shape := f.shape } := by
        simp [updatedDeclaration?, h, free, known, Option.filter, told]
      rw [declared]
      exact below.refine_eq_right rfl rfl
  | false =>
      -- Nothing was declared, so what is declared again says nothing.
      rw [Bool.or_eq_false_iff, Option.isSome_eq_false_iff, Option.isSome_eq_false_iff,
        Option.isNone_iff_eq_none, Option.isNone_iff_eq_none] at told
      have silent := Facts.silent_of_foldl_refine (total ▸ told.1) (total ▸ told.2)
      rw [← total, Facts.foldl_refine_of_silent silent]
      refine Facts.foldl_refine_of_silent (fun v hv => ?_) a
      rw [Option.mem_toList] at hv
      have declared : g.updatedDeclaration? facts x =
          (Scope.ofBindings (g.valueInfo.map fun v => (v.name, v))).get? x := by
        simp [updatedDeclaration?, h, free, known, Option.filter, told]
      obtain ⟨mem, name⟩ := mem_of_declared (declared ▸ hv)
      exact silent v (List.mem_filter.2 ⟨List.mem_append_left _ mem, decide_eq_true name⟩)

/-! ## Updating again -/

theorem distinct_inOrder (distinct : Node.Distinct g.nodes) (ho : g.topologicalOrder = .ok order) :
    Node.Distinct (order.filterMap fun i => g.nodes[i]?) :=
  ((perm_filterMap_getElem? (topologicalOrder_eq_ok ho).1).flatMap_right _).nodup_iff.2 distinct

/-- No output of a node is an initializer. -/
theorem initializer?_of_mem_outputsIn (nodup : g.definitions.Nodup)
    (ho : g.topologicalOrder = .ok order) (hx : x ∈ g.outputsIn order) :
    g.initializer? x = none := by
  have perm := (perm_filterMap_getElem? (topologicalOrder_eq_ok ho).1).flatMap_right
    Node.presentOutputs
  rw [← Option.isNone_iff_eq_none, isNone_initializer?]
  intro mem
  unfold definitions at nodup
  exact (List.nodup_append.1 nodup).2.2 x (List.mem_append_left _ mem) x (perm.mem_iff.1 hx) rfl

theorem infer_redeclared (nodup : g.definitions.Nodup) (ho : g.topologicalOrder = .ok order)
    (apart : ∀ v ∈ g.valueInfo, g.isOutput v.name = false) :
    (g.redeclared (g.infer version outer) (g.outputsIn order)).infer version outer =
      g.infer version outer := by
  have distinct : Node.Distinct (order.filterMap fun i => g.nodes[i]?) :=
    distinct_inOrder (List.nodup_append.1 nodup).2.1 ho
  have visited : (g.redeclared (g.infer version outer) (g.outputsIn order)).evaluationOrder.map
      Subtype.val = order.filterMap fun i => g.nodes[i]? := map_val_evaluationOrder ho
  rw [infer_eq, visited]
  generalize inferred : g.infer version outer = facts
  rw [infer_eq, map_val_evaluationOrder ho] at inferred
  refine (foldl_inferNode_congr distinct g.givenFacts fun x hx f a known total => ?_).trans inferred
  rw [inferred] at known
  cases output : g.isOutput x with
  | true =>
      refine foldl_refine_of_isOutput output (fun v hv name => ?_) known total
      rw [← name, apart v hv] at output
      cases output
  | false =>
      exact foldl_refine_of_not_isOutput distinct hx output
        (initializer?_of_mem_outputsIn nodup ho hx) known total

/-- In declarations that are made for some names, each name has its own. -/
theorem get?_declared_filterMap {h : String → Option ValueInfo} {names : List String}
    (named : ∀ y v, h y = some v → v.name = y) (hx : x ∈ names) :
    (Scope.ofBindings ((names.filterMap h).map fun v => (v.name, v))).get? x = h x := by
  cases found : (Scope.ofBindings ((names.filterMap h).map fun v => (v.name, v))).get? x with
  | some v =>
      obtain ⟨mem, name⟩ := mem_of_declared found
      obtain ⟨y, -, made⟩ := List.mem_filterMap.1 mem
      have same : y = x := (named y v made).symm.trans name
      rw [← made, same]
  | none =>
      cases made : h x with
      | none => rfl
      | some v =>
          have mem : v ∈ names.filterMap h := List.mem_filterMap.2 ⟨x, hx, made⟩
          exact absurd (named x v made) (name_ne_of_not_declared found v mem)

/-- What is declared of a value stays the same. -/
theorem updatedDeclaration?_redeclared {names : List String} (hx : x ∈ names) :
    (g.redeclared facts names).updatedDeclaration? facts x = g.updatedDeclaration? facts x := by
  have declared : (Scope.ofBindings
      ((g.redeclared facts names).valueInfo.map fun v => (v.name, v))).get? x =
        g.updatedDeclaration? facts x :=
    get?_declared_filterMap (fun _ _ => name_of_updatedDeclaration?) hx
  have constants : (g.redeclared facts names).initializer? x = g.initializer? x := rfl
  unfold updatedDeclaration? at declared ⊢
  rw [isOutput_redeclared, constants]
  split
  · rfl
  next here =>
    rw [if_neg here] at declared
    split
    next known => rfl
    next unknown =>
      rw [unknown] at declared
      exact declared

theorem fillDeclaration_fillDeclaration (facts : Scope Facts) (v : ValueInfo) :
    fillDeclaration facts (fillDeclaration facts v) = fillDeclaration facts v := by
  cases known : facts.get? v.name with
  | none => simp [fillDeclaration, known]
  | some f => simp [fillDeclaration, known, Option.or_assoc]

/-- Declaring the same again changes nothing. -/
theorem redeclared_redeclared (g : Graph) (facts : Scope Facts) (names : List String) :
    (g.redeclared facts names).redeclared facts names = g.redeclared facts names := by
  have values : names.filterMap ((g.redeclared facts names).updatedDeclaration? facts) =
      names.filterMap (g.updatedDeclaration? facts) :=
    List.filterMap_congr fun x hx => updatedDeclaration?_redeclared hx
  have outputs : (g.outputs.map (fillDeclaration facts)).map (fillDeclaration facts) =
      g.outputs.map (fillDeclaration facts) := by
    rw [List.map_map]
    exact List.map_congr_left fun v _ => fillDeclaration_fillDeclaration facts v
  calc
    (g.redeclared facts names).redeclared facts names =
        { g with
          valueInfo := names.filterMap ((g.redeclared facts names).updatedDeclaration? facts)
          outputs := (g.outputs.map (fillDeclaration facts)).map (fillDeclaration facts) } := rfl
    _ = g.redeclared facts names := by
        rw [values, outputs]
        rfl

/-! ## Main results -/

/-- No output of an updated graph is declared elsewhere. -/
theorem isOutput_of_mem_valueInfo_redeclared {names : List String} {v : ValueInfo}
    (hv : v ∈ (g.redeclared facts names).valueInfo) :
    (g.redeclared facts names).isOutput v.name = false := by
  obtain ⟨y, -, made⟩ := List.mem_filterMap.1 hv
  rw [isOutput_redeclared, name_of_updatedDeclaration? made, ← Bool.not_eq_true]
  intro output
  rw [updatedDeclaration?_of_isOutput output] at made
  cases made

/-- If no output is declared elsewhere, the updated graph has the same facts, and updating it again
changes nothing. -/
theorem updateDeclarations_stable (nodup : g.definitions.Nodup)
    (ho : g.topologicalOrder = .ok order) (apart : ∀ v ∈ g.valueInfo, g.isOutput v.name = false) :
    ∃ g', g.updateDeclarations (g.infer version outer) = .ok g' ∧
      g'.infer version outer = g.infer version outer ∧
      g'.updateDeclarations (g.infer version outer) = .ok g' := by
  refine ⟨_, updateDeclarations_eq ho _, infer_redeclared nodup ho apart, ?_⟩
  have order' : (g.redeclared (g.infer version outer) (g.outputsIn order)).topologicalOrder =
      .ok order := ho
  rw [updateDeclarations_eq order']
  exact congrArg Except.ok (redeclared_redeclared g _ _)

/-- Facts and declarations of a valid graph are stable after the first update, however its outputs
were declared. -/
theorem updateDeclarations_twice_stable {names : List String} (valid : g.validate names = .ok ())
    (ho : g.topologicalOrder = .ok order) :
    ∃ g₁ g₂, g.updateDeclarations (g.infer version outer) = .ok g₁ ∧
      g₁.updateDeclarations (g₁.infer version outer) = .ok g₂ ∧
      g₂.infer version outer = g₁.infer version outer ∧
      g₂.updateDeclarations (g₁.infer version outer) = .ok g₂ := by
  have nodup : g.definitions.Nodup := by
    have all := (validate_eq_ok_iff.1 valid).1
    rw [allDefinitions_eq] at all
    exact (List.nodup_append.1 all).1
  have update := updateDeclarations_eq ho (g.infer version outer)
  obtain ⟨g₂, again, same, still⟩ :=
    updateDeclarations_stable (g := g.redeclared (g.infer version outer) (g.outputsIn order))
      nodup ho fun v hv => isOutput_of_mem_valueInfo_redeclared hv
  exact ⟨_, g₂, update, again, same, still⟩

/-- A graph with an unknown operator.  Its output is declared twice, and only the declaration that
is not one of the outputs has its size. -/
def declaredTwice : Graph where
  nodes := [{ opType := "Foo", inputs := ["x"], outputs := ["y"] }]
  inputs := [{ name := "x", type := some .float32, shape := some [.fixed 2] }]
  outputs := [{ name := "y", type := some .float32, shape := some [.unknown] }]
  valueInfo := [{ name := "y", type := some .float32, shape := some [.fixed 2] }]

/-- The update takes out the declaration with the size, and fills in nothing: the size is not known
any more. -/
theorem infer_forgets_declaredTwice :
    declaredTwice.validate [] = .ok () ∧
      ((declaredTwice.infer (some 13) []).get? "y").map Facts.shape = some (some [.fixed 2]) ∧
      ∃ h, declaredTwice.updateDeclarations (declaredTwice.infer (some 13) []) = .ok h ∧
        ((h.infer (some 13) []).get? "y").map Facts.shape = some (some [.unknown]) := by
  have made : (declaredTwice.updateDeclarations (declaredTwice.infer (some 13) [])).toOption.map
      (fun h => ((h.infer (some 13) []).get? "y").map Facts.shape) =
        some (some (some [.unknown])) := by
    decide +kernel
  obtain ⟨h, done, seen⟩ := exists_ok_of_toOption made
  exact ⟨by cbv, by decide +kernel, h, done, seen⟩

end Graph
end TensorGraph
