import TensorGraph.Facts.Basic
import TensorGraph.Tensor.Index

/-!
# Sliding windows

How a window moves over the spatial dimensions of an input: the padding at both ends of each
dimension, the number of its places, and the input positions that it covers at a place.
-/

namespace TensorGraph

/-- The padding of the spatial dimensions. -/
inductive Padding where
  /-- Enough padding for one place per stride; an odd part is added at the end. -/
  | sameUpper
  /-- As `sameUpper`, with an odd part added at the start. -/
  | sameLower
  /-- The padding at the start of each dimension, followed by that at each end.  An empty list is no
  padding. -/
  | explicit (pads : List Nat)
  | valid
  deriving DecidableEq, Repr

/-- A sliding window.  Strides and dilations are 1 if they are not given. -/
structure Window where
  kernel : List Nat
  strides : List Nat := []
  dilations : List Nat := []
  padding : Padding := .valid
  /-- Whether a last place may reach beyond the padded input. -/
  ceilMode : Bool := false
  deriving DecidableEq, Repr

/-- How a window moves along one dimension. -/
structure WindowAxis where
  size : Nat
  stride : Nat
  dilation : Nat
  padBegin : Nat
  padEnd : Nat
  /-- The number of places. -/
  places : Nat
  deriving DecidableEq, Repr

namespace WindowAxis

/-- The position in the input of an entry of the kernel, unless it is in the padding. -/
def position? (a : WindowAxis) (place entry : Nat) : Option Nat :=
  let padded := place * a.stride + entry * a.dilation
  if a.padBegin ≤ padded ∧ padded - a.padBegin < a.size then some (padded - a.padBegin) else none

end WindowAxis

/-- The distance between the first and the last entry of a kernel, plus 1. -/
def kernelExtent (kernel dilation : Nat) : Nat := (max kernel 1 - 1) * dilation + 1

/-- One number per spatial dimension.  Without any, all are 1. -/
def perDimension (values : List Nat) (rank : Nat) : OpResult (List Nat) :=
  if values.isEmpty then .ok (List.replicate rank 1)
  else if values.length = rank ∧ values.all (0 < ·) then .ok values
  else .error (.invalidValue "invalid strides or dilations")

/-- The padding and the places that give one place per stride. -/
def sameAxis (upper : Bool) (size extent stride dilation : Nat) : WindowAxis :=
  let places := divideUp size stride
  let total := (max places 1 - 1) * stride + extent - size
  let small := total / 2
  { size := size
    stride := stride
    dilation := dilation
    padBegin := if upper then small else total - small
    padEnd := if upper then total - small else small
    places := places }

/-- The places on a dimension with known padding. -/
def paddedAxis (ceilMode : Bool) (size extent stride dilation padBegin padEnd : Nat) :
    OpResult WindowAxis :=
  let padded := size + padBegin + padEnd
  if padded < extent then .error (.incompatibleShapes "input is smaller than kernel")
  else
    let places :=
      if ceilMode then
        let last := divideUp (padded - extent) stride
        if size + padBegin ≤ last * stride then last else last + 1
      else (padded - extent) / stride + 1
    .ok
      { size := size
        stride := stride
        dilation := dilation
        padBegin := padBegin
        padEnd := padEnd
        places := places }

/-- The padding of the dimension at a position. -/
def explicitPads (pads : List Nat) (rank i : Nat) : OpResult (Nat × Nat) :=
  if pads.isEmpty then .ok (0, 0)
  else if pads.length ≠ 2 * rank then
    .error (.invalidValue "pads length must be twice the spatial rank")
  else .ok (pads.getD i 0, pads.getD (i + rank) 0)

namespace Window

/-- How the window moves along the dimension at a position. -/
def axisAt (w : Window) (rank i size kernel stride dilation : Nat) : OpResult WindowAxis := do
  let extent := kernelExtent kernel dilation
  match w.padding with
  | .sameUpper => return sameAxis true size extent stride dilation
  | .sameLower => return sameAxis false size extent stride dilation
  | .explicit pads =>
    let (padBegin, padEnd) ← explicitPads pads rank i
    paddedAxis w.ceilMode size extent stride dilation padBegin padEnd
  | .valid => paddedAxis w.ceilMode size extent stride dilation 0 0

/-- How the window moves over an input with the given spatial sizes. -/
def layout (w : Window) (sizes : List Nat) : OpResult (List WindowAxis) := do
  let rank := sizes.length
  if w.kernel.length ≠ rank then
    .error (.incompatibleShapes "kernel rank does not match input spatial dims")
  else
    let strides ← perDimension w.strides rank
    let dilations ← perDimension w.dilations rank
    (sizes.zip (w.kernel.zip (strides.zip dilations))).zipIdx.mapM
      fun ((size, kernel, stride, dilation), i) => w.axisAt rank i size kernel stride dilation

/-- The spatial dimensions of the output. -/
def outputDims (w : Window) (dims : List Dim) : FactsResult (List Dim) :=
  match Dim.sizes? dims with
  | some sizes => do return (← (w.layout sizes).toFacts).map fun a => .fixed a.places
  | none => .ok (List.replicate dims.length .unknown)

end Window

/-- The row-major offset of the input position under an entry of the kernel, or `none` if it is in
the padding.  The offset of the dimensions before is `base`. -/
def tapOffset? : List WindowAxis → (place entry : List Nat) → (base : Nat) → Option Nat
  | a :: axes, p :: place, k :: entry, base => do
    tapOffset? axes place entry (base * a.size + (← a.position? p k))
  | _, _, _, base => some base

/-- The sizes of the output of a window. -/
def placeCounts (layout : List WindowAxis) : List Nat := layout.map WindowAxis.places

/-- The number of samples, the number of channels and the spatial sizes of a shape. -/
def splitChannels (shape : List Nat) : OpResult (Nat × Nat × List Nat) :=
  match shape with
  | samples :: channels :: size :: sizes => .ok (samples, channels, size :: sizes)
  | _ => .error (.invalidValue "input must have at least 3 dims")

end TensorGraph
