import TensorGraph.Evaluation.Basic
import TensorGraph.Number.Random
import TensorGraph.Simplification.Error

/-!
# Checking a simplified graph

A graph and its simplification are run on random inputs, and outputs of the same name are compared.
Floating-point outputs may differ by a tolerance.
-/

namespace TensorGraph

/-- The size of a dimension in samples. -/
def Dim.sampleSize (sizes : Scope Nat) : Dim → Nat
  | .fixed n => n
  | .symbolic (.var name) => (sizes.get? name).getD 1
  | .symbolic _ | .unknown => 1

/-- A random tensor, if there is a way to choose its elements.  Floating-point numbers are from 0
up to 1, and integers are 0. -/
def sampleTensor? (type : ElementType) (shape : List Nat) (g : Generator) :
    Option Tensor × Generator :=
  match type with
  | .float32 | .float64 =>
    let (xs, g) := g.draws Generator.binary64 (elementCount shape)
    (Tensor.ofBinary64s? type shape xs.toArray, g)
  | .bool =>
    let (xs, g) := g.draws Generator.bool (elementCount shape)
    (some (.ofArray shape xs.toArray), g)
  | _ => (Tensor.zeros? type shape, g)

/-- A random tensor for an input. -/
def ValueInfo.sample (v : ValueInfo) (sizes : Scope Nat) (g : Generator) :
    Except OptionFault (Tensor × Generator) :=
  match v.type, v.shape with
  | some type, some dims =>
    match sampleTensor? type (dims.map (Dim.sampleSize sizes)) g with
    | (some t, g) => .ok (t, g)
    | (none, _) => .error (.noSamples type v.name)
  | _, _ => .error (.inputNotDeclared v.name)

namespace Graph

/-- Tensors for the inputs of a graph: those that the options give, and random ones. -/
def sampleInputs (g : Graph) (o : Options) (seed : UInt64) : Except OptionFault (Scope Tensor) := do
  let (inputs, _) ← g.runtimeInputs.foldlM (fun (inputs, generator) v =>
    match o.customTensors.get? v.name with
    | some t => .ok (Scope.bind inputs v.name t, generator)
    | none => do
      let (t, generator) ← v.sample o.dimSizes generator
      return (Scope.bind inputs v.name t, generator)) (([] : Scope Tensor), (⟨seed⟩ : Generator))
  return inputs

end Graph

namespace Tolerance

/-- Whether a number is close enough to the expected one.  NaN is close to NaN only. -/
def accepts (t : Tolerance) (expected actual : Binary64) : Bool :=
  (actual.isNaN && expected.isNaN) ||
    Binary64.le (actual.sub expected).abs (t.absolute.add (t.relative.mul expected.abs))

/-- Whether a tensor is close enough to the expected one. -/
def acceptsTensor (t : Tolerance) (expected actual : Tensor) : Bool :=
  expected.elementType = actual.elementType && expected.shape = actual.shape &&
    if expected.elementType.isFloat then
      match expected.elements.toBinary64s?, actual.elements.toBinary64s? with
      | some xs, some ys => (xs.zip ys).all fun (x, y) => t.accepts x y
      | _, _ => false
    else expected.sameContents actual

/-- Whether all outputs of a simplified graph are close enough to the outputs of the same names. -/
def acceptsOutputs (t : Tolerance) (expected : List (String × Tensor))
    (actual : List (String × Tensor)) : Bool :=
  actual.all fun (name, x) =>
    match expected.lookup name with
    | some y => t.acceptsTensor y x
    | none => false

end Tolerance

namespace Graph

/-- The outputs of a graph with their names. -/
def namedOutputs (g : Graph) (outputs : List Tensor) : List (String × Tensor) :=
  (g.outputs.map ValueInfo.name).zip outputs

/-- Compare a simplified graph with another graph on one sample.  The two runs have chances of their
own. -/
def agreesOn (reference simplified : Graph) (version : Option Int64) (o : Options) (seed : UInt64) :
    Except SimplifyError Bool := do
  let inputs ← (reference.sampleInputs o seed).mapError .invalidOption
  let expected ← (reference.run version ⟨2 * seed⟩ inputs).mapError .run
  let actual ← (simplified.run version ⟨2 * seed + 1⟩ inputs).mapError .run
  return o.tolerance.acceptsOutputs (reference.namedOutputs expected)
    (simplified.namedOutputs actual)

/-- Compare a simplified graph with another graph on as many samples as the options say.  The
number of a sample is its seed. -/
def isEquivalent (reference simplified : Graph) (version : Option Int64) (o : Options) :
    Except SimplifyError Bool := do
  let results ← (List.range o.samples).mapM fun i =>
    reference.agreesOn simplified version o (.ofNat i)
  return results.all id

end Graph
end TensorGraph
