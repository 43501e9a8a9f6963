import TensorGraph.Operator.Window

/-!
# Convolution and batch normalization

The kernels only add, subtract and multiply elements, so that they can be run over any field.
-/

namespace TensorGraph

/-- A convolution. -/
structure Conv where
  padding : Padding := .valid
  groups : Nat := 1
  strides : List Nat := []
  dilations : List Nat := []
  /-- The sizes of the kernel, if they are not taken from the weights. -/
  kernelShape : Option (List Nat) := none
  deriving DecidableEq, Repr

namespace Conv

/-- The window that moves over the input, for the sizes of the weights' kernel. -/
def window (c : Conv) (kernel : List Nat) : Window :=
  { kernel := c.kernelShape.getD kernel
    strides := c.strides
    dilations := c.dilations
    padding := c.padding }

/-- The offsets of the pairs of elements whose products make up one element of the output: for each
channel of the group, for each entry of the kernel that is not over padding. -/
def terms (layout : List WindowAxis) (kernel place : List Nat)
    (inputLength groupChannels firstInput firstWeight : Nat) : List (Nat × Nat) :=
  let entries := indexes kernel
  (List.range groupChannels).flatMap fun c =>
    entries.zipIdx.filterMap fun (entry, k) =>
      (tapOffset? layout place entry 0).map fun position =>
        ((firstInput + c) * inputLength + position, (firstWeight + c) * entries.length + k)

/-- Add the products of some pairs of elements to a number. -/
def addProducts {α : Type} [RingOps α] (x w : Array α) (start : α) (pairs : List (Nat × Nat)) : α :=
  pairs.foldl (fun sum (i, j) =>
    RingOps.add sum (RingOps.mul (x.getD i RingOps.zero) (w.getD j RingOps.zero))) start

/-- The shape and the elements of a convolution. -/
def elements {α : Type} [RingOps α] (c : Conv) (xShape wShape : List Nat) (x w : Array α)
    (bias : Option (Array α)) : OpResult (List Nat × Array α) := do
  let (samples, channels, sizes) ← splitChannels xShape
  let (outChannels, groupChannels, kernel) ← splitChannels wShape
  let groups := max c.groups 1
  if channels ≠ groupChannels * groups ∨ outChannels % groups ≠ 0 then
    .error (.incompatibleShapes "input channels do not match weights and groups")
  else if bias.any fun b => b.size ≠ outChannels then
    .error (.incompatibleShapes "bias size must match output channels")
  else
    let layout ← (c.window kernel).layout sizes
    let places := indexes (placeCounts layout)
    let out := (List.range samples).flatMap fun n => (List.range outChannels).flatMap fun m =>
      let group := m / (outChannels / groups)
      let start := ((bias.bind (·[m]?)).getD RingOps.zero)
      places.map fun place =>
        addProducts x w start (terms layout kernel place (elementCount sizes) groupChannels
          (n * channels + group * groupChannels) (m * groupChannels))
    return (samples :: outChannels :: placeCounts layout, out.toArray)

def runAt (α : Type) [Element α] [RealOps α] (c : Conv) (input weight : Tensor)
    (bias : Option Tensor) : OpResult Tensor := do
  let x ← input.arrayOf α
  let w ← weight.arrayOf α
  let b ← match bias with
    | some bias => (bias.arrayOf α).map some
    | none => .ok none
  let (shape, out) ← c.elements input.shape weight.shape x w b
  return .ofArray shape out

def run (c : Conv) (inputs : Inputs) : OpResult Tensor := do
  let input ← inputs.require 0
  let weight ← inputs.require 1
  input.elementType.dispatchReal fun α _ _ => c.runAt α input weight (inputs.get? 2)

/-- The dimensions of a convolution, if the ranks allow one. -/
def outputDims (c : Conv) (input weight : List Dim) : FactsResult (Option (List Dim)) :=
  match input, weight with
  | n :: _ :: d :: dims, m :: _ :: kernel =>
    match c.kernelShape.or (Dim.sizes? kernel) with
    | some kernel => do return some (n :: m :: (← (c.window kernel).outputDims (d :: dims)))
    | none => .ok (some (n :: m :: List.replicate (dims.length + 1) .unknown))
  | _, _ => .ok none

def infer (c : Conv) (inputs : InputFacts) : FactsResult (List Facts) := do
  let input ← inputs.require 0
  let weight ← inputs.require 1
  let shape ← match input.shape, weight.shape with
    | some s, some t => c.outputDims s t
    | _, _ => .ok none
  return [{ type := input.type, shape := shape }]

end Conv

/-- Batch normalization with given statistics. -/
structure BatchNormalization where
  /-- Added to the variance. -/
  epsilon : Binary32
  deriving DecidableEq, Repr

namespace BatchNormalization

/-- Shift and scale each channel of an input with the given shape: subtract the mean, multiply by
the factor and add the bias. -/
def normalize {α : Type} [RingOps α] (samples channels planeLength : Nat)
    (x mean factor bias : Array α) : List α :=
  (List.range samples).flatMap fun n => (List.range channels).flatMap fun c =>
    (List.range planeLength).map fun i =>
      let v := x.getD ((n * channels + c) * planeLength + i) RingOps.zero
      RingOps.add
        (RingOps.mul (RingOps.sub v (mean.getD c RingOps.zero)) (factor.getD c RingOps.zero))
        (bias.getD c RingOps.zero)

/-- One number per channel. -/
def channelArray (α : Type) [Element α] (t : Tensor) (channels : Nat) : OpResult (Array α) := do
  let xs ← t.arrayOf α
  if xs.size ≠ channels then
    .error (.incompatibleShapes "normalization parameters must have one value per channel")
  else return xs

/-- The factor of a channel: the scale over the square root of the variance plus epsilon. -/
def factor {α : Type} [RealOps α] (epsilon : α) (scale variance : α) : α :=
  RealOps.div scale (RealOps.sqrt (RingOps.add variance epsilon))

def runAt (α : Type) [Element α] [RealOps α] (b : BatchNormalization)
    (input scale bias mean variance : Tensor) : OpResult Tensor := do
  let x ← input.arrayOf α
  match input.shape with
  | samples :: channels :: rest =>
    let scale ← channelArray α scale channels
    let bias ← channelArray α bias channels
    let mean ← channelArray α mean channels
    let variance ← channelArray α variance channels
    let factors := (scale.zip variance).map fun (s, v) => factor (RealOps.ofBinary32 b.epsilon) s v
    let out := normalize samples channels (elementCount rest) x mean factors bias
    return .ofArray input.shape out.toArray
  | _ => .error (.invalidValue "input must have at least 2 dims")

def run (b : BatchNormalization) (inputs : Inputs) (outputs : Option Nat) : OpResult Tensor := do
  let input ← inputs.require 0
  let scale ← inputs.require 1
  let bias ← inputs.require 2
  let mean ← inputs.require 3
  let variance ← inputs.require 4
  if 1 < outputs.getD 1 then .error (.unsupportedValue "training mode is not supported")
  else
    input.elementType.dispatchReal fun α _ _ => b.runAt α input scale bias mean variance

end BatchNormalization
end TensorGraph
