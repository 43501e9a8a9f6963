import TensorGraph.Proofs.Interface.Graph
import TensorGraph.Proofs.Interface.Rules
import TensorGraph.Proofs.Simplification.Valid

/-!
# Simplified models keep their interface

Input:

* a loaded model, and options for which it is simplified without an error.

Algorithm:

* each pass over the graph keeps its interface, and no node defines an input (`Graph.Keeps`);
* nested graphs are changed after the last pass, when nothing is taken out of them any more, so
  nothing needs to be known of what they define;
* the default values of inputs are put back, and inputs and initializers are made to agree.

Main results:

* `Simplifier.simplifyGraph_keeps`: simplifying a graph keeps its interface;
* `Model.simplify_keeps_interface`: outputs and inputs of the simplified model are those of the
  model, and its initializers are used and placed as the version of the format asks for.
-/

namespace TensorGraph

/-! ## What is not used -/

namespace Graph

variable {g g' : Graph}

theorem KeepsInterface.eliminateDeadCode (version : Option Int64) (g : Graph) :
    g.KeepsInterface (g.eliminateDeadCode version) :=
  .of_nodes _

/-- Initializers of inputs are kept. -/
theorem KeepsInterface.removeUnusedInitializers (g : Graph) :
    g.KeepsInterface g.removeUnusedInitializers := by
  refine ⟨rfl, ValueInfo.all_completes_refl _, fun x hx => ?_⟩
  simp only [initializerNames, Graph.removeUnusedInitializers, List.mem_map, List.mem_filter,
    Bool.or_eq_true, isInput_iff]
  constructor
  · rintro ⟨i, ⟨hi, -⟩, rfl⟩
    exact ⟨i, hi, rfl⟩
  · rintro ⟨i, hi, rfl⟩
    exact ⟨i, ⟨hi, Or.inr hx⟩, rfl⟩

theorem Keeps.eliminateDeadCode (apart : g.Apart) (version : Option Int64) :
    g.Keeps (g.eliminateDeadCode version) := by
  refine ⟨.eliminateDeadCode version g, fun m hm => ?_⟩
  obtain ⟨n, hn, rfl⟩ := List.mem_map.1 hm
  have trims := Node.trims_dropDeadOutputs version (liveNodes g.outputNames g.nodes).2 n
  refine (apart n ((liveNodes_sublist _ _).subset hn)).of_subset
    (fun x hx => trims.sublist.subset hx) fun x hx => ?_
  rw [← trims.innerNames]
  exact hx

/-! ## Declarations -/

theorem completes_fillDeclaration (facts : Scope Facts) (v : ValueInfo) :
    v.Completes (fillDeclaration facts v) := by
  unfold fillDeclaration
  split
  · exact .refl v
  · exact ⟨rfl, fun t ht => by rw [ht, Option.some_or], fun dims hd => by rw [hd, Option.some_or]⟩

/-- Declaring what is known keeps the interface. -/
theorem KeepsInterface.updateDeclarations (g : Graph) (facts : Scope Facts) :
    Ensures (g.updateDeclarations facts) g.KeepsInterface := by
  refine Ensures.bind_any fun order => .pure ⟨rfl, ?_, fun _ _ => Iff.rfl⟩
  rw [List.forall₂_map_right_iff, List.forall₂_same]
  exact fun v _ => completes_fillDeclaration facts v

end Graph

/-! ## Passes -/

namespace Simplifier

open Simplifying TensorGraph.Graph

variable {s : Simplifier} {around : Surroundings} {facts : Scope Facts} {path : String} {g : Graph}

theorem prune_keepsInterface (s : Simplifier) (g : Graph) : g.KeepsInterface (s.prune g) :=
  (KeepsInterface.eliminateDeadCode s.version g).trans (.removeUnusedInitializers _)

theorem prune_keeps (apart : g.Apart) : g.Keeps (s.prune g) :=
  ⟨s.prune_keepsInterface g, (Keeps.eliminateDeadCode apart s.version).apart⟩

theorem foldConstants_keeps (apart : g.Apart) :
    (s.foldConstants around facts path g).Yields g.Keeps := by
  unfold Simplifier.foldConstants
  split
  · exact .pure (.refl apart)
  · exact .bind_any fun _ => .ofExcept fun _ h => .foldConstants apart h

theorem sorted_keeps (apart : g.Apart) : (Simplifying.sorted g).Yields g.Keeps :=
  .ofExcept fun _ h => .sortTopologically apart h

theorem applyRules_keeps (apart : g.Apart) :
    (s.applyRules around facts path g).Yields g.Keeps := by
  unfold Simplifier.applyRules
  split
  · exact .pure (.refl apart)
  · have applied := Keeps.applyRules apart s.options.rules s.version facts around path
    exact .bind_any fun _ => (sorted_keeps applied.apart).mono fun _ h => applied.trans h

theorem pass_keeps (apart : g.Apart) : (s.pass around path g).Yields g.Keeps := by
  refine (foldConstants_keeps apart).bind fun folded h => ?_
  refine (applyRules_keeps h.apart).bind fun changed h' => .pure ?_
  exact (h.trans h').trans (prune_keeps h'.apart)

/-- All passes together keep what one of them keeps. -/
theorem iterate_keeps (apart : g.Apart) (passes : Nat) :
    (s.iterate around path passes g).Yields g.Keeps := by
  induction passes generalizing g with
  | zero => exact .bind_any fun _ => .bind_any fun _ => .pure (.refl apart)
  | succ passes ih =>
      refine (pass_keeps apart).bind fun next h => ?_
      split
      · exact .pure h
      · exact (ih h.apart).mono fun _ h' => h.trans h'

theorem simplifyFlat_keeps (apart : g.Apart) :
    (s.simplifyFlat around path g).Yields g.Keeps := by
  have lowered := Keeps.lowerConstants apart s.version
  refine (sorted_keeps lowered.apart).bind fun start h => ?_
  exact (iterate_keeps h.apart _).mono fun _ h' => (lowered.trans h).trans h'

/-- Nested graphs may become anything. -/
theorem simplifyAllNested_keeps {simplify : Surroundings → String → Graph → Simplifying Graph} :
    Returns (s.simplifyAllNested simplify around path g) g.KeepsInterface :=
  Returns.bind (Q := fun _ => True) (fun _ => trivial) fun _ _ => Returns.pure (.of_nodes _)

theorem declare_keeps : (s.declare around g).Yields g.KeepsInterface := by
  unfold declare
  split
  · exact .pure (.refl g)
  · exact .ofExcept (.updateDeclarations g _)

/-- Simplifying a graph down to any depth keeps its interface. -/
theorem simplifyGraph_keeps (apart : g.Apart) (depth : Nat) :
    (s.simplifyGraph depth around path g).Yields g.KeepsInterface := by
  have declared : ∀ h : Graph, g.KeepsInterface h → (s.declare around h).Yields g.KeepsInterface :=
    fun h k => declare_keeps.mono fun _ h' => k.trans h'
  unfold simplifyGraph
  refine (simplifyFlat_keeps apart).bind fun flat h => ?_
  split
  · split
    · exact declared flat h.interface
    · refine (Yields.lift simplifyAllNested_keeps).bind fun nested h' => ?_
      exact declared _ ((h.interface.trans h').trans (s.prune_keepsInterface nested))
  · exact declared flat h.interface

end Simplifier

/-! ## Prepared graphs -/

namespace Graph

variable {g g' g'' : Graph}

/-- Only declared shapes of inputs are replaced. -/
theorem ensures_overwriteInputShapes (g : Graph) (shapes : List (String × List Dim)) :
    Ensures (g.overwriteInputShapes shapes) fun shaped =>
      ∃ vs, shaped = { g with inputs := vs } ∧ vs.map ValueInfo.name = g.inputNames := by
  refine Ensures.foldlM ⟨g.inputs, by cases g; rfl, rfl⟩ fun shaped p _ done => ?_
  obtain ⟨vs, rfl, names⟩ := done
  dsimp only
  split
  · rename_i ws hws
    exact .ok ⟨ws, rfl, (setInputShape_spec hws).1.trans names⟩
  · exact .error

/-- The graph without some of its outputs. -/
def withoutOutputs (names : List String) (g : Graph) : Graph :=
  { g with outputs := g.outputs.filter fun v => v.name ∉ names }

/-- A prepared graph has the inputs with other shapes, and the outputs that are not removed. -/
theorem prepare_keeps (apart : g.Apart) (version : Option Int64) (o : Options) :
    Ensures (g.prepare version o) fun prepared =>
      ∃ shaped, g.overwriteInputShapes o.inputShapes = .ok shaped ∧
        (shaped.withoutOutputs o.unusedOutputs).Keeps prepared := by
  refine Ensures.bind (P := fun shaped => g.overwriteInputShapes o.inputShapes = .ok shaped)
    (.mapError fun _ h => h) fun shaped hshaped => ?_
  obtain ⟨vs, heq, names⟩ := ensures_overwriteInputShapes g o.inputShapes shaped hshaped
  have reduced : (shaped.withoutOutputs o.unusedOutputs).Apart := by
    subst heq
    intro n hn
    change n.Spares (vs.map ValueInfo.name)
    exact names ▸ apart n hn
  split
  · exact .error
  · split
    · rename_i empty
      have same : shaped.withoutOutputs o.unusedOutputs = shaped := by
        rw [List.isEmpty_iff.1 empty]
        cases shaped
        simp [withoutOutputs]
      refine .pure ⟨shaped, hshaped, ?_⟩
      rw [same] at reduced ⊢
      exact .refl reduced
    · refine Ensures.bind (P := fun h => h = shaped.withoutOutputs o.unusedOutputs)
        (.mapError ?_) fun h hh => ?_
      · unfold removeOutputs
        split
        · exact .error
        · refine .ok (congrArg (fun vs => ({ shaped with outputs := vs } : Graph)) ?_)
          exact List.filter_congr fun v _ => by simp
      · subst hh
        refine Ensures.bind (P := (shaped.withoutOutputs o.unusedOutputs).Keeps)
          (.mapError fun _ hs => .sortTopologically reduced hs) fun sorted hs => ?_
        exact .pure ⟨shaped, hshaped, hs.trans (.eliminateDeadCode hs.apart version)⟩

/-! ## Default values -/

/-- Without default values the same nodes define no input. -/
theorem Apart.withoutDefaults (apart : g.Apart) (overridable : Bool) :
    (g.withoutDefaults overridable).Apart := by
  cases overridable <;> exact apart

/-- With the default values put back, the interface is that of the graph that had them. -/
theorem KeepsInterface.restoreDefaults {overridable : Bool}
    (h : (g.withoutDefaults overridable).KeepsInterface g') :
    g.KeepsInterface { g' with initializers := g'.initializers ++ g.defaultValues overridable } := by
  have same : (g.withoutDefaults overridable).inputs = g.inputs ∧
      (g.withoutDefaults overridable).outputs = g.outputs := by
    cases overridable <;> exact ⟨rfl, rfl⟩
  obtain ⟨inputs, outputs, defaults⟩ := h
  rw [same.1] at inputs
  rw [same.2] at outputs
  refine ⟨inputs, outputs, fun x hx => mem_names_restoreDefaults hx (defaults x ?_)⟩
  rwa [Graph.inputNames, same.1]

/-- Whether a graph is called like another one, and its initializers are used, and are inputs exactly
where inputs have default values. -/
structure Presents (overridable : Bool) (g g' : Graph) : Prop where
  outputs : List.Forall₂ ValueInfo.Completes g.outputs g'.outputs
  runtimeInputs : g'.runtimeInputs = g.runtimeInputs
  used : ∀ i ∈ g'.initializers, i.name ∈ g'.uses
  placed : ∀ i ∈ g'.initializers, (i.name ∈ g'.inputNames ↔ overridable = true)

/-- Inputs and initializers are made to agree. -/
theorem KeepsInterface.syncInputs (h : g.KeepsInterface g') (overridable : Bool) :
    g.Presents overridable (g'.syncInputs (!overridable)) where
  outputs := by cases overridable <;> exact h.outputs
  runtimeInputs := (runtimeInputs_syncInputs _).trans h.runtimeInputs
  used i hi := by
    have uses : (g'.syncInputs (!overridable)).uses = g'.uses := by cases overridable <;> rfl
    exact uses ▸ (mem_initializers_syncInputs.1 hi).2
  placed i hi := by
    rw [mem_inputNames_syncInputs hi]
    cases overridable <;> simp

/-- The order of the nodes does not matter. -/
theorem Presents.sortTopologically {overridable : Bool} (h : g.Presents overridable g')
    (done : g'.sortTopologically = .ok g'') : g.Presents overridable g'' := by
  obtain ⟨ns, rfl, perm⟩ := sortTopologically_perm done
  refine ⟨h.outputs, h.runtimeInputs, fun i hi => ?_, h.placed⟩
  refine mem_uses.2 ((mem_uses.1 (h.used i hi)).imp_left ?_)
  rintro ⟨n, hn, hr⟩
  exact ⟨n, perm.mem_iff.2 hn, hr⟩

end Graph

/-! ## Models -/

namespace Model

variable {m : Model} {o : Options} {g : Graph}

/-- A graph whose inputs no node defines is simplified to one that is called in the same way. -/
theorem simplifyGraph_presents (apart : g.Apart) :
    (m.simplifyGraph o g).Yields (g.Presents m.initializersOverridable) := by
  refine .bind (Simplifier.simplifyGraph_keeps (apart.withoutDefaults _) _) fun simplified h => ?_
  refine .bind (.ofExcept fun _ hs => ?_) fun sorted h' => .bind_any fun _ => .pure h'
  exact (h.restoreDefaults.syncInputs _).sortTopologically hs

theorem initializersOverridable_iff :
    m.initializersOverridable = true ↔ ∃ v, m.irVersion = some v ∧ v < 4 := by
  unfold initializersOverridable
  split
  · rename_i v hv
    rw [decide_eq_true_iff]
    exact ⟨fun lt => ⟨v, hv, lt⟩, fun ⟨w, hw, lt⟩ => Option.some.inj (hv.symm.trans hw) ▸ lt⟩
  · rename_i hv
    simp [hv]

/-- The simplified graph presents the prepared one. -/
theorem ensures_simplify (apart : m.graph.Apart) :
    Ensures (m.simplify o) fun s => ∃ shaped prepared,
      m.graph.overwriteInputShapes o.inputShapes = .ok shaped ∧
        (shaped.withoutOutputs o.unusedOutputs).Keeps prepared ∧
        prepared.Presents m.initializersOverridable s.model.graph := by
  refine Ensures.bind_any fun _ => ?_
  refine Ensures.bind (Graph.prepare_keeps apart m.operatorVersion o) fun prepared hp => ?_
  obtain ⟨shaped, hshaped, keeps⟩ := hp
  have presents := simplifyGraph_presents (m := m) (o := o) keeps.apart {}
  generalize (m.simplifyGraph o prepared).run.run {} = result at presents
  obtain ⟨e, report⟩ := result
  refine Ensures.bind presents fun graph hgraph => Ensures.bind_any fun _ => .pure ?_
  exact ⟨shaped, prepared, hshaped, keeps, hgraph⟩

/-- A simplified model has the outputs of the model that are not removed, in order, and needs values
for the same inputs, in order.  What was declared of them stays declared, except for the shapes
that the options give.  Each of its initializers is read by a node, perhaps in a graph nested
there, or is an output, and is an input exactly in a format before version 4. -/
theorem simplify_keeps_interface {bytes : Wire.Bytes} {s : Simplified}
    (loaded : load bytes = .ok m) (done : m.simplify o = .ok s) :
    s.model.graph.outputNames = m.graph.outputNames.filter (· ∉ o.unusedOutputs) ∧
      List.Forall₂ ValueInfo.Completes
        (m.graph.outputs.filter fun v => v.name ∉ o.unusedOutputs) s.model.graph.outputs ∧
      s.model.graph.runtimeInputs.map ValueInfo.name = m.graph.runtimeInputs.map ValueInfo.name ∧
      (∃ shaped, m.graph.overwriteInputShapes o.inputShapes = .ok shaped ∧
        s.model.graph.runtimeInputs = shaped.runtimeInputs) ∧
      (∀ i ∈ s.model.graph.initializers,
        (∃ n ∈ s.model.graph.nodes, i.name ∈ n.reads) ∨ i.name ∈ s.model.graph.outputNames) ∧
      ∀ i ∈ s.model.graph.initializers,
        (i.name ∈ s.model.graph.inputNames ↔ ∃ v, m.irVersion = some v ∧ v < 4) := by
  have valid := (ensures_load bytes m loaded).valid
  have apart := (Graph.Unique.of_nodup (Graph.validate_eq_ok_iff.1 valid).1).apart
  obtain ⟨shaped, prepared, hshaped, ⟨interface, -⟩, presents⟩ := ensures_simplify apart s done
  have outputs := ValueInfo.all_completes_trans interface.outputs presents.outputs
  have inputs := presents.runtimeInputs.trans interface.runtimeInputs
  obtain ⟨vs, rfl, names⟩ := Graph.ensures_overwriteInputShapes m.graph o.inputShapes shaped hshaped
  refine ⟨?_, outputs, ?_, ⟨_, hshaped, inputs⟩, fun i hi => Graph.mem_uses.1 (presents.used i hi),
    fun i hi => (presents.placed i hi).trans initializersOverridable_iff⟩
  · rw [Graph.outputNames, ValueInfo.names_of_completes outputs, Graph.outputNames, List.filter_map]
    rfl
  · rw [inputs, Graph.names_runtimeInputs, Graph.names_runtimeInputs]
    exact congrArg (List.filter _) names

/-- A graph that adds the product of two constants to its input.  Another input has a default value
that nothing reads. -/
def shiftingGraph : Message.Graph where
  nodes :=
    [{ opType := some "Relu", inputs := ["x"], outputs := ["z"] },
     { opType := some "Mul", inputs := ["a", "b"], outputs := ["c"] },
     { opType := some "Add", inputs := ["x", "c"], outputs := ["y"] }]
  initializers :=
    [{ name := some "a", dataType := some Message.TypeCode.int64, int64Data := [3] },
     { name := some "b", dataType := some Message.TypeCode.int64, int64Data := [5] },
     { name := some "v", dataType := some Message.TypeCode.int64, int64Data := [7] }]
  inputs := [{ name := some "v" }, { name := some "x" }]
  outputs := [{ name := some "z" }, { name := some "y" }]

/-- A model with this graph, in a format where initializers are default values of inputs. -/
def shiftingModel : Message.Model where
  irVersion := some 3
  graph := some shiftingGraph

set_option maxRecDepth 10000 in
/-- One output is removed, the product is folded, and it becomes an input with a default value. -/
theorem simplify_keeps_interface_shifting :
    ∃ (m : Model) (s : Simplified), load shiftingModel.encode = .ok m ∧
      m.simplify { unusedOutputs := ["z"], skipRules := true } = .ok s ∧
      s.model.graph.outputNames = ["y"] ∧
      s.model.graph.runtimeInputs.map ValueInfo.name = ["x"] ∧
      s.model.graph.initializerNames = ["c"] ∧ "c" ∈ s.model.graph.inputNames := by
  have given : (load shiftingModel.encode).toOption.map (fun m =>
      (m.graph.outputNames, m.graph.runtimeInputs.map ValueInfo.name, m.irVersion)) =
      some (["z", "y"], ["x"], some 3) := by decide +kernel
  have made : (TensorGraph.simplify shiftingModel.encode
      { unusedOutputs := ["z"], skipRules := true }).toOption.map (fun s =>
        s.model.graph.initializerNames) = some ["c"] := by decide +kernel
  obtain ⟨m, loaded, hm⟩ := exists_ok_of_toOption given
  obtain ⟨s, done, hs⟩ := exists_ok_of_toOption made
  replace done : m.simplify { unusedOutputs := ["z"], skipRules := true } = .ok s := by
    rw [TensorGraph.simplify, loaded] at done
    exact done
  obtain ⟨outputs, -, inputs, -, -, placed⟩ := simplify_keeps_interface loaded done
  simp only [Prod.mk.injEq] at hm
  refine ⟨m, s, loaded, done, ?_, ?_, hs, ?_⟩
  · rw [outputs, hm.1]
    decide
  · rw [inputs, hm.2.1]
  · obtain ⟨i, hi, name⟩ := List.mem_map.1 (hs ▸ List.mem_singleton_self "c")
    exact name ▸ (placed i hi).2 ⟨3, hm.2.2, by decide⟩

end Model
end TensorGraph
