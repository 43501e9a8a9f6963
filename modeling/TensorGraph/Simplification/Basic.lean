import TensorGraph.Simplification.Equivalence
import TensorGraph.Simplification.Fixpoint

/-!
# Simplifying models

A model is simplified as the options say: shapes of inputs are replaced, outputs are removed, and
the graph is simplified until nothing changes.  The result is compared with the model before on
samples.
-/

namespace TensorGraph

/-- A simplified model. -/
structure Simplified where
  /-- The model before. -/
  before : Model
  model : Model
  /-- Whether the model agreed with the one before on all samples. -/
  passed : Bool
  report : Report

namespace Simplified

/-- The notes of the level that the options ask for. -/
def notes (s : Simplified) (o : Options) : List Note := Note.collect o.noteLevel s.report.notes

end Simplified

/-- Replace the declared shape of the first input with a name. -/
def setInputShape (name : String) (shape : List Dim) : List ValueInfo → Option (List ValueInfo)
  | [] => none
  | v :: rest =>
    if v.name = name then some ({ v with shape := some shape } :: rest)
    else (setInputShape name shape rest).map (v :: ·)

namespace Graph

/-- Replace declared shapes of inputs. -/
def overwriteInputShapes (g : Graph) (shapes : List (String × List Dim)) :
    Except OptionFault Graph :=
  shapes.foldlM (fun g (name, shape) =>
    match setInputShape name shape g.inputs with
    | some inputs => .ok { g with inputs := inputs }
    | none => .error (.notAnInput name)) g

/-- The first input without a fixed size in some dimension.  Inputs without declared dimensions do
not count. -/
def dynamicInput? (g : Graph) : Option ValueInfo :=
  g.runtimeInputs.find? fun v =>
    match v.shape with
    | some dims => dims.any fun d => !d.isFixed
    | none => false

/-- The graph that the options ask for, before it is simplified. -/
def prepare (g : Graph) (version : Option Int64) (o : Options) : Except SimplifyError Graph := do
  let shaped ← (g.overwriteInputShapes o.inputShapes).mapError .invalidOption
  match if o.dynamicInputShape then none else shaped.dynamicInput? with
  | some v => .error (.dynamicInput v.name)
  | none =>
    if o.unusedOutputs.isEmpty then return shaped
    else
      let reduced ← (shaped.removeOutputs o.unusedOutputs).mapError .unknownOutput
      let sorted ← reduced.sortTopologically.mapError .cyclic
      return sorted.eliminateDeadCode version

/-- The initializers that another value may be given for, if inputs have default values. -/
def defaultValues (g : Graph) (overridable : Bool) : List Initializer :=
  if overridable then g.initializers.filter fun i => g.isInput i.name else []

/-- The graph without the default values of its inputs, which are not constants. -/
def withoutDefaults (g : Graph) (overridable : Bool) : Graph :=
  if overridable then
    { g with initializers := g.initializers.filter fun i => !g.isInput i.name }
  else g

end Graph

namespace Model

/-- Simplify a graph that is the graph of the model or was made from it. -/
def simplifyGraph (m : Model) (o : Options) (g : Graph) : Simplifying Graph := do
  let overridable := m.initializersOverridable
  let simplifier : Simplifier := { version := m.operatorVersion, options := o }
  let simplified ← simplifier.run (g.withoutDefaults overridable)
  let complete :=
    { simplified with
      initializers := simplified.initializers ++ g.defaultValues overridable }
  let sorted ← Simplifying.sorted (complete.syncInputs (!overridable))
  Simplifying.ofExcept .malformed (sorted.validate [])
  return sorted

/-- Simplify a model. -/
def simplify (m : Model) (o : Options) : Except SimplifyError Simplified := do
  o.validate.mapError .invalidOption
  let prepared ← m.graph.prepare m.operatorVersion o
  let (result, report) := (m.simplifyGraph o prepared).run.run {}
  let graph ← result
  let passed ← prepared.isEquivalent graph m.operatorVersion o
  return { before := m, model := { m with graph := graph }, passed := passed, report := report }

end Model

/-- Simplify a stored model. -/
def simplify (bytes : Wire.Bytes) (o : Options) : Except SimplifyError Simplified := do
  (← (Model.load bytes).mapError .load).simplify o

end TensorGraph
