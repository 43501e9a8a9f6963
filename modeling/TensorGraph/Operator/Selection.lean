import TensorGraph.Operator.Layout

/-!
# Selecting elements

Picking entries along an axis by their indexes, cutting out a strided region, and dividing an axis
into parts.
-/

namespace TensorGraph

/-- The position that a possibly negative index counts. -/
def resolveIndex? (index : Int) (size : Nat) : Option Nat :=
  let resolved := if index < 0 then index + size else index
  if 0 ≤ resolved ∧ resolved < size then some resolved.toNat else none

/-! Entries along an axis. -/

/-- The shape that results when an axis is replaced by the shape of the indexes. -/
def gatherShape {δ : Type} (shape : List δ) (axis : Nat) (indexShape : List δ) : List δ :=
  shape.take axis ++ indexShape ++ shape.drop (axis + 1)

/-- The offsets of the entries at some positions of an axis. -/
def gatherOffsets (shape : List Nat) (axis : Nat) (positions : List Nat) : List Nat :=
  let (outer, size, inner) := splitAtAxis shape axis
  (List.range outer).flatMap fun o => positions.flatMap fun position =>
    (List.range inner).map fun i => (o * size + position) * inner + i

def runGather (axis : Int) (inputs : Inputs) : OpResult Tensor := do
  let t ← inputs.require 0
  let indexTensor ← inputs.require 1
  let values ← inputs.requireInts 1
  let axis ← resolveAxis t.rank axis
  let positions ← orFault (.invalidValue "gather index is out of bounds")
    (values.mapM fun v => resolveIndex? v (t.shape.getD axis 0))
  takeTensor t (gatherShape t.shape axis indexTensor.shape) (gatherOffsets t.shape axis positions)

/-- Known elements at known positions. -/
def gatherValues (values : List SizeExpr) (indices : List Int) : Option (List SizeExpr) :=
  indices.mapM fun v => do values[← resolveIndex? v values.length]?

def inferGather (axis : Int) (inputs : InputFacts) : FactsResult (List Facts) := do
  let data ← inputs.require 0
  let indices ← inputs.require 1
  match data.shape, indices.shape with
  | some shape, some indexShape =>
    let axis ← resolveFactsAxis shape.length axis
    let out := gatherShape shape axis indexShape
    let values :=
      if shape.length = 1 ∧ out.length ≤ 1 then do
        gatherValues (← data.values) (← indices.integers?)
      else none
    return [{ type := data.type, shape := some out, values := values }]
  | _, _ => return [{ type := data.type }]

/-! Strided regions. -/

/-- The positions `start`, `start + step`, and so on, `count` of them. -/
structure SliceRange where
  start : Nat
  count : Nat
  step : Int
  deriving DecidableEq, Repr

/-- The positions from a start up to an end along an axis.  Negative positions count from the end,
and positions outside of the axis are moved to its ends. -/
def resolveRange (size : Nat) (start stop step : Int) : OpResult SliceRange :=
  if step = 0 then .error (.invalidValue "slice step cannot be zero")
  else
    let n : Int := size
    let fromFront (i : Int) : Int := if i < 0 then i + n else i
    let clamp (low high i : Int) : Int := max low (min high i)
    if 0 < step then
      let first := clamp 0 n (fromFront start)
      let last := clamp 0 n (fromFront stop)
      let count := divideUp (last - first).toNat step.toNat
      .ok { start := first.toNat, count := if size = 0 then 0 else count, step := step }
    else
      let first := clamp 0 (max (n - 1) 0) (fromFront start)
      let last := clamp (-1) (n - 1) (fromFront stop)
      let count := divideUp (first - last).toNat step.natAbs
      .ok { start := first.toNat, count := if size = 0 then 0 else count, step := step }

/-- The bounds of a region, an entry for each axis that is cut. -/
structure SliceBounds where
  starts : List Int
  stops : List Int
  axes : List Int
  steps : List Int
  deriving DecidableEq, Repr

namespace SliceBounds

/-- Bounds of the first axes with step 1, unless axes or steps are given. -/
def make (starts stops : List Int) (axes steps : Option (List Int)) : OpResult SliceBounds :=
  let n := starts.length
  let axes := axes.getD ((List.range n).map Int.ofNat)
  let steps := steps.getD (List.replicate n 1)
  if stops.length ≠ n ∨ axes.length ≠ n ∨ steps.length ≠ n then
    .error (.invalidValue "starts, ends, axes and steps must have the same length")
  else .ok { starts := starts, stops := stops, axes := axes, steps := steps }

/-- The dimensions that are cut, with start, end and step. -/
def entries (b : SliceBounds) (rank : Nat) : OpResult (List (Nat × Int × Int × Int)) := do
  return (← resolveAxes rank b.axes).zip (b.starts.zip (b.stops.zip b.steps))

/-- The positions along each dimension of a shape. -/
def ranges (b : SliceBounds) (shape : List Nat) : OpResult (List SliceRange) := do
  let whole := shape.map fun n => ({ start := 0, count := n, step := 1 } : SliceRange)
  (← b.entries shape.length).foldlM (fun ranges (axis, start, stop, step) => do
    return ranges.set axis (← resolveRange (shape.getD axis 0) start stop step)) whole

end SliceBounds

/-- A strided region.  The bounds are attributes or inputs. -/
structure Slice where
  starts : Option (List Int) := none
  stops : Option (List Int) := none
  axes : Option (List Int) := none
  deriving DecidableEq, Repr

namespace Slice

/-- The bounds of the region. -/
def bounds (s : Slice) (inputs : Inputs) : OpResult SliceBounds := do
  match s.starts, s.stops with
  | some starts, some stops => SliceBounds.make starts stops s.axes none
  | _, _ =>
    let starts ← inputs.requireInts 1
    let stops ← inputs.requireInts 2
    let axes ← inputs.ints? 3
    SliceBounds.make starts stops axes (← inputs.ints? 4)

/-- The elements of an omitted input, or of an input that is known. -/
def knownInput (inputs : InputFacts) (i : Nat) : Option (Option (List Int)) :=
  match inputs.get? i with
  | some f => f.integers?.map some
  | none => some none

/-- The bounds of the region, if they are known and valid. -/
def knownBounds (s : Slice) (inputs : InputFacts) : Option SliceBounds := do
  match s.starts, s.stops with
  | some starts, some stops => (SliceBounds.make starts stops s.axes none).toOption
  | _, _ =>
    let starts ← (← knownInput inputs 1)
    let stops ← (← knownInput inputs 2)
    let axes ← knownInput inputs 3
    (SliceBounds.make starts stops axes (← knownInput inputs 4)).toOption

/-- The elements in some ranges of positions, one for each dimension. -/
def takeRanges (t : Tensor) (ranges : List SliceRange) : OpResult Tensor :=
  let steps := strides t.shape
  let base := offsetOf (ranges.map SliceRange.start) (steps.map Int.ofNat)
  let shape := ranges.map SliceRange.count
  takeTensor t shape
    (stridedOffsets shape ((ranges.zip steps).map fun (r, step) => r.step * (step : Int)) base)

def run (s : Slice) (inputs : Inputs) : OpResult Tensor := do
  let t ← inputs.require 0
  takeRanges t (← (← s.bounds inputs).ranges t.shape)

/-- The size of a region of a dimension whose size is an expression.  Ends from half the range of
integers on stand for the end of the dimension. -/
def symbolicSize (size : SizeExpr) (start stop step : Int) : Dim :=
  let toEnd := Int64.maxValue.toInt / 2 ≤ stop
  if step ≠ 1 ∨ start < 0 then .unknown
  else if start = 0 ∧ toEnd then .ofExpr size
  else if toEnd then .ofExpr ((size.minus (.const start)).larger (.const 0))
  else if start ≤ stop then
    .ofExpr ((size.smaller (.const stop)).minus (size.smaller (.const start)))
  else .unknown

/-- A dimension of the region. -/
def regionDim (d : Dim) (start stop step : Int) : FactsResult Dim :=
  match d with
  | .fixed size => do return .fixed (← (resolveRange size start stop step).toFacts).count
  | .symbolic size => .ok (symbolicSize size start stop step)
  | .unknown => .ok .unknown

/-- The known elements in a region of a vector. -/
def regionValues (bounds : SliceBounds) (values : List SizeExpr) :
    FactsResult (Option (List SizeExpr)) := do
  match ← (bounds.ranges [values.length]).toFacts with
  | [r] =>
    return (List.range r.count).mapM fun (i : Nat) =>
      values[((r.start : Int) + (i : Int) * r.step).toNat]?
  | _ => return none

def infer (s : Slice) (inputs : InputFacts) : FactsResult (List Facts) := do
  let input ← inputs.require 0
  match input.shape, s.knownBounds inputs with
  | some shape, some bounds =>
    let entries ← (bounds.entries shape.length).toFacts
    let out ← entries.foldlM (fun out (axis, start, stop, step) => do
      return out.set axis (← regionDim (shape.getD axis .unknown) start stop step)) shape
    let values ← match input.values, shape with
      | some values, [.fixed _] => regionValues bounds values
      | _, _ => .ok none
    return [{ type := input.type, shape := some out, values := values }]
  | _, _ =>
    return [{ type := input.type, shape := input.rank?.map fun n => List.replicate n .unknown }]

end Slice

/-! Parts of an axis. -/

/-- Divide an axis into parts of given sizes, or into a number of parts of equal size, of which the
last ones may be smaller. -/
structure Split where
  axis : Int := 0
  sizes : Option (List Int) := none
  count : Option Nat := none
  deriving DecidableEq, Repr

/-- The sizes of equal parts. -/
def evenSplit (size n : Nat) : OpResult (List Nat) :=
  if n = 0 then .error (.invalidValue "num_outputs must be positive")
  else
    let chunk := divideUp size n
    .ok ((List.range n).map fun i => min chunk (size - i * chunk))

/-- The position at which each part starts, with its size. -/
def partStarts (start : Nat) : List Nat → List (Nat × Nat)
  | [] => []
  | size :: rest => (start, size) :: partStarts (start + size) rest

/-- A part of a tensor along an axis. -/
def takePart (t : Tensor) (axis start size : Nat) : OpResult Tensor :=
  let steps := (strides t.shape).map Int.ofNat
  let shape := t.shape.set axis size
  takeTensor t shape (stridedOffsets shape steps ((start : Int) * steps.getD axis 0))

namespace Split

/-- The sizes of the parts of an axis. -/
def partSizes (s : Split) (size : Nat) (inputs : Inputs) (outputs : Option Nat) :
    OpResult (List Nat) := do
  match (← inputs.ints? 1).or s.sizes with
  | some sizes =>
    let sizes ← toSizes sizes
    if sizes.foldl (· + ·) 0 ≠ size then
      .error (.invalidValue "split sizes do not sum to axis size")
    else return sizes
  | none =>
    evenSplit size (← orFault (.invalidValue "number of outputs is unknown") (s.count.or outputs))

def run (s : Split) (inputs : Inputs) (outputs : Option Nat) : OpResult (List Tensor) := do
  let t ← inputs.require 0
  let axis ← resolveAxis t.rank s.axis
  let sizes ← s.partSizes (t.shape.getD axis 0) inputs outputs
  (partStarts 0 sizes).mapM fun (start, size) => takePart t axis start size

/-- The dimensions of equal parts.  A size given by an expression is taken to be divisible. -/
def evenDims (d : Dim) (n : Nat) : FactsResult (List Dim) :=
  match d with
  | .fixed size => do return (← (evenSplit size n).toFacts).map Dim.fixed
  | .symbolic size => .ok (List.replicate n (.ofExpr (size.quotient (.const n))))
  | .unknown => .ok (List.replicate n .unknown)

/-- The dimensions of the parts, if their number is known. -/
def partDims (s : Split) (d : Dim) (inputs : InputFacts) : FactsResult (Option (List Dim)) :=
  match inputs.get? 1, s.sizes, s.count with
  | some sizes, _, _ => .ok sizes.dims?
  | none, some sizes, _ => .ok (some (sizes.map fun v => Dim.ofExpr (.const v)))
  | none, none, some n => (evenDims d n).map some
  | none, none, none => .ok none

/-- The known elements of the parts of a vector. -/
def partValues (values : List SizeExpr) (sizes : List Nat) : List (Option (List SizeExpr)) :=
  (partStarts 0 sizes).map fun (start, size) =>
    if start + size ≤ values.length then some ((values.drop start).take size) else none

def infer (s : Split) (inputs : InputFacts) : FactsResult (List Facts) := do
  let input ← inputs.require 0
  match input.shape with
  | none => return []
  | some shape =>
    let axis ← resolveFactsAxis shape.length s.axis
    match ← s.partDims (shape.getD axis .unknown) inputs with
    | none => return []
    | some dims =>
      let values :=
        match input.values, Dim.sizes? dims with
        | some values, some sizes =>
          if shape.length = 1 then partValues values sizes else dims.map fun _ => none
        | _, _ => dims.map fun _ => none
      return (dims.zip values).map fun (d, values) =>
        { type := input.type, shape := some (shape.set axis d), values := values }

end Split
end TensorGraph
