import TensorGraph.Facts.Elementwise
import TensorGraph.Operator.Reduction

/-!
# Operators on shapes

Operators that ask for the shape of a tensor, change it, or move elements to other places without
computing with them.
-/

namespace TensorGraph

/-- The elements of a tensor at some offsets, in a new shape. -/
def takeTensor (t : Tensor) (shape : List Nat) (offsets : List Nat) : OpResult Tensor :=
  t.elementType.dispatch fun α _ => do return .ofArray shape (takeAt (← t.arrayOf α) offsets)

/-- The same elements in another shape, which must hold as many. -/
def reshapeTo (t : Tensor) (shape : List Nat) : OpResult Tensor :=
  if elementCount shape ≠ t.size then
    .error (.incompatibleShapes "output size does not match input size")
  else reshapeOrFault t shape

/-- The product of some dimensions. -/
def dimsProduct (dims : List Dim) : Dim :=
  match dims.mapM Dim.expr? with
  | some sizes => .ofExpr (sizes.foldl SizeExpr.times (.const 1))
  | none => .unknown

/-- Known elements that are kept by a change of shape to a scalar or vector. -/
def keptValues (input : Facts) (shape : Option (List Dim)) : Option (List SizeExpr) :=
  match shape with
  | some dims => if dims.length ≤ 1 then input.values else none
  | none => none

/-! The shape and the size of a tensor. -/

/-- The range of dimensions between two positions, which count from the end if they are negative. -/
def shapeRange (rank : Nat) (start stop : Option Int) : Nat × Nat :=
  let clamp (i : Int) : Nat := (max 0 (min (rank : Int) (if i < 0 then i + rank else i))).toNat
  let first := clamp (start.getD 0)
  (first, max first (clamp (stop.getD rank)))

/-- A part of a list between two positions. -/
def sliceList {α : Type} (xs : List α) (range : Nat × Nat) : List α :=
  (xs.take range.2).drop range.1

def runShape (start stop : Option Int) (inputs : Inputs) : OpResult Tensor := do
  let t ← inputs.require 0
  let dims := sliceList t.shape (shapeRange t.rank start stop)
  return .vector (dims.map Int64.ofNat).toArray

def inferShape (start stop : Option Int) (inputs : InputFacts) : FactsResult (List Facts) := do
  let input ← inputs.require 0
  match input.shape with
  | none => return [{ type := some .int64, shape := some [.unknown] }]
  | some shape =>
    let dims := sliceList shape (shapeRange shape.length start stop)
    match dims.mapM Dim.expr? with
    | some values => return [.ofValues .int64 values]
    | none => return [{ type := some .int64, shape := some [.fixed dims.length] }]

def runSize (inputs : Inputs) : OpResult Tensor := do
  return .scalar (Int64.ofNat (← inputs.require 0).size)

def inferSize (inputs : InputFacts) : FactsResult (List Facts) := do
  let input ← inputs.require 0
  match (input.shape.map dimsProduct).bind Dim.expr? with
  | some size => return [.ofScalar .int64 size]
  | none => return [{ type := some .int64, shape := some [] }]

/-! Changes of shape. -/

/-- One entry of the target of a reshape: the size, or `none` for the entry that is to be found.
Zero stands for the input's dimension unless zeros are allowed. -/
def reshapeEntry (input : List Nat) (allowZero : Bool) (i : Nat) (entry : Int) :
    OpResult (Option Nat) :=
  if entry = -1 then .ok none
  else if entry = 0 ∧ !allowZero then
    (orFault (.invalidValue "zero dim has no corresponding input dim") input[i]?).map some
  else if entry < 0 then .error (.invalidValue "invalid dim size")
  else .ok (some entry.toNat)

/-- The entries of the target of a reshape.  At most one is to be found. -/
def reshapeEntries (input : List Nat) (allowZero : Bool) (target : List Int) :
    OpResult (List (Option Nat)) :=
  target.zipIdx.foldlM (fun entries (entry, i) => do
    let found ← reshapeEntry input allowZero i entry
    if found.isNone && entries.contains none then
      .error (.invalidValue "multiple -1 dims in shape")
    else return entries ++ [found]) []

/-- The shape that a reshape gives. -/
def resolveReshape (input : List Nat) (target : List Int) (allowZero : Bool) :
    OpResult (List Nat) := do
  let entries ← reshapeEntries input allowZero target
  let known := elementCount (entries.map (·.getD 1))
  if entries.contains none then
    if known = 0 ∨ elementCount input % known ≠ 0 then
      .error (.incompatibleShapes "input size is not divisible by output dims")
    else return entries.map (·.getD (elementCount input / known))
  else return entries.map (·.getD 1)

def runReshape (allowZero : Bool) (inputs : Inputs) : OpResult Tensor := do
  let t ← inputs.require 0
  let target ← inputs.requireInts 1
  reshapeTo t (← resolveReshape t.shape target allowZero)

/-- The product of the integers in a list of sizes, and the product of the others. -/
def splitFactors (sizes : List SizeExpr) : Int × SizeExpr :=
  sizes.foldl (fun (constant, symbols) e =>
    match e with
    | .const v => (constant * v, symbols)
    | e => (constant, symbols.times e)) (1, .const 1)

/-- Cancel the known dimensions of an output against the sizes of the input.  The product of the
fixed ones is collected. -/
def cancelFactors (sizes : List SizeExpr) : List Dim → Option (List SizeExpr × Int)
  | [] => some (sizes, 1)
  | d :: rest => do
    match ← d.expr? with
    | .const v =>
      let (left, denominator) ← cancelFactors sizes rest
      return (left, v * denominator)
    | e => if sizes.contains e then cancelFactors (sizes.erase e) rest else none

/-- The dimension that a reshape has to find.  Symbolic factors of the output are cancelled against
equal factors of the input. -/
def inferReshapeDim (input known : List Dim) : Dim :=
  let found : Option Dim := do
    let sizes ← input.mapM Dim.expr?
    let (left, denominator) ← cancelFactors sizes known
    let (constant, symbols) := splitFactors left
    if denominator = 0 ∨ constant.tmod denominator ≠ 0 then none
    else return .ofExpr ((SizeExpr.const (constant.tdiv denominator)).times symbols)
  found.getD .unknown

/-- The dimension for one entry of the target of a reshape. -/
def reshapeDim (input : Option (List Dim)) (allowZero : Bool) (i : Nat) (entry : SizeExpr) : Dim :=
  match entry.constant? with
  | some v =>
    if v = -1 then .unknown
    else if v = 0 ∧ !allowZero then (input.bind fun dims => dims[i]?).getD .unknown
    else .ofExpr entry
  | none => .ofExpr entry

/-- The dimensions that a reshape gives for a known target. -/
def reshapeDims (input : Option (List Dim)) (allowZero : Bool) (target : List SizeExpr) :
    List Dim :=
  let dims := target.zipIdx.map fun (entry, i) => reshapeDim input allowZero i entry
  let wanted := (target.zipIdx.filter fun (entry, _) => entry = .const (-1)).getLast?
  match wanted, input with
  | some (_, i), some shape => dims.set i (inferReshapeDim shape (dims.eraseIdx i))
  | _, _ => dims

def inferReshape (allowZero : Bool) (inputs : InputFacts) : FactsResult (List Facts) := do
  let input ← inputs.require 0
  let target ← inputs.require 1
  let shape :=
    match target.values, target.shape with
    | some values, _ => some (reshapeDims input.shape allowZero values)
    | none, some [.fixed rank] => some (List.replicate rank .unknown)
    | _, _ => none
  return [{ type := input.type, shape := shape, values := keptValues input shape }]

/-- The place where the dimensions of a matrix are divided.  It may be the rank. -/
def flattenAxis (rank : Nat) (axis : Int) : OpResult Nat :=
  if axis = rank then .ok rank else resolveAxis rank axis

def runFlatten (axis : Int) (inputs : Inputs) : OpResult Tensor := do
  let t ← inputs.require 0
  let axis ← flattenAxis t.rank axis
  reshapeTo t [elementCount (t.shape.take axis), elementCount (t.shape.drop axis)]

def inferFlatten (axis : Int) (inputs : InputFacts) : FactsResult (List Facts) := do
  let input ← inputs.require 0
  match input.shape with
  | some shape =>
    let axis ← (flattenAxis shape.length axis).toFacts
    let dims := [dimsProduct (shape.take axis), dimsProduct (shape.drop axis)]
    return [{ type := input.type, shape := some dims }]
  | none => return [{ type := input.type, shape := some [.unknown, .unknown] }]

/-- The axes of an operator: an attribute, or else the second input. -/
def axesInput (axes : Option (List Int)) (inputs : Inputs) : OpResult (Option (List Int)) :=
  match axes with
  | some axes => .ok (some axes)
  | none => inputs.ints? 1

def runSqueeze (axes : Option (List Int)) (inputs : Inputs) : OpResult Tensor := do
  let t ← inputs.require 0
  match ← axesInput axes inputs with
  | some axes =>
    let axes ← resolveAxes t.rank axes
    if axes.any fun axis => t.shape.getD axis 1 ≠ 1 then
      .error (.invalidValue "can only remove dims of size 1")
    else reshapeTo t (droppedShape t.shape axes)
  | none => reshapeTo t (t.shape.filter (· ≠ 1))

/-- Whether a dimension has a fixed size other than 1. -/
def isFixedNotOne : Dim → Bool
  | .fixed n => n != 1
  | _ => false

def inferSqueeze (axes : Option (List Int)) (inputs : InputFacts) : FactsResult (List Facts) := do
  let input ← inputs.require 0
  let shape ← match input.shape, Reduction.knownAxes axes inputs with
    | some shape, some (some axes) => do
      let axes ← (resolveAxes shape.length axes).toFacts
      if axes.any fun axis => isFixedNotOne (shape.getD axis .unknown) then
        .error .incompatibleShapes
      else .ok (some (droppedShape shape axes))
    | some shape, some none =>
      if shape.all Dim.isFixed then .ok (some (shape.filter (· ≠ .fixed 1))) else .ok none
    | _, _ => .ok none
  return [{ type := input.type, shape := shape, values := keptValues input shape }]

/-- Put dimensions of size 1 at some positions of the output, and the input's dimensions at the
others. -/
def insertDims {δ : Type} (axes : List Nat) (one : δ) : Nat → Nat → List δ → List δ
  | 0, _, _ => []
  | count + 1, i, dims =>
    if axes.contains i then one :: insertDims axes one count (i + 1) dims
    else
      match dims with
      | [] => one :: insertDims axes one count (i + 1) []
      | d :: rest => d :: insertDims axes one count (i + 1) rest

/-- The shape with dimensions of size 1 at the given axes of the output. -/
def unsqueezeShape {δ : Type} (shape : List δ) (axes : List Int) (one : δ) : OpResult (List δ) := do
  let rank := shape.length + axes.length
  return insertDims (← resolveAxes rank axes) one rank 0 shape

def runUnsqueeze (axes : Option (List Int)) (inputs : Inputs) : OpResult Tensor := do
  let t ← inputs.require 0
  let axes ← orFault .missingInputs (← axesInput axes inputs)
  reshapeTo t (← unsqueezeShape t.shape axes 1)

def inferUnsqueeze (axes : Option (List Int)) (inputs : InputFacts) : FactsResult (List Facts) := do
  let input ← inputs.require 0
  let shape ← match input.shape, Reduction.knownAxes axes inputs with
    | some shape, some (some axes) => (unsqueezeShape shape axes (.fixed 1)).toFacts.map some
    | _, _ => .ok none
  return [{ type := input.type, shape := shape, values := keptValues input shape }]

/-! Moved elements. -/

/-- The order of the dimensions of a transposed tensor.  Without one they are reversed. -/
def resolvePerm (perm : Option (List Int)) (rank : Nat) : OpResult (List Nat) :=
  match perm with
  | some perm =>
    if perm.length ≠ rank then .error (.invalidValue "perm length does not match input rank")
    else resolveAxes rank perm
  | none => .ok (List.range rank).reverse

def runTranspose (perm : Option (List Int)) (inputs : Inputs) : OpResult Tensor := do
  let t ← inputs.require 0
  let perm ← resolvePerm perm t.rank
  let steps := strides t.shape
  let shape := perm.map fun p => t.shape.getD p 1
  takeTensor t shape (stridedOffsets shape (perm.map fun p => (steps.getD p 0 : Nat)) 0)

def inferTranspose (perm : Option (List Int)) (inputs : InputFacts) : FactsResult (List Facts) := do
  let input ← inputs.require 0
  let shape ← match input.shape with
    | some shape => do
      let order ← (resolvePerm perm shape.length).toFacts
      .ok (some (order.map fun p => shape.getD p .unknown))
    | none => .ok (perm.map fun p => List.replicate p.length Dim.unknown)
  return [{ type := input.type, shape := shape }]

def runExpand (inputs : Inputs) : OpResult Tensor := do
  let t ← inputs.require 0
  let target ← toSizes (← inputs.requireInts 1)
  let shape ← orFault (.incompatibleShapes "cannot broadcast input to shape")
    (broadcastShapes t.shape target)
  takeTensor t shape (broadcastOffsets t.shape shape)

def inferExpand (inputs : InputFacts) : FactsResult (List Facts) := do
  let input ← inputs.require 0
  let target ← inputs.require 1
  let shape ← match input.shape, target.dims? with
    | some shape, some dims => (broadcastDims shape dims).map some
    | _, _ => .ok none
  return [{ type := input.type, shape := shape }]

/-- The indexes of the elements that are not zero, one row for each dimension. -/
def runNonZero (inputs : Inputs) : OpResult Tensor := do
  let t ← inputs.require 0
  let nonZero ← orFault .unsupportedType
    (t.elements.toBinary64s?.map fun xs => xs.toList.map fun x => !x.eq .zero)
  let found := (((indexes t.shape).zip nonZero).filter fun (_, b) => b).map Prod.fst
  let rows := (List.range t.rank).flatMap fun dim =>
    found.map fun index => Int64.ofNat (index.getD dim 0)
  return .ofArray [t.rank, found.length] rows.toArray

def inferNonZero (inputs : InputFacts) : FactsResult (List Facts) := do
  let input ← inputs.require 0
  let rank := match input.rank? with
    | some n => Dim.fixed n
    | none => .unknown
  return [{ type := some .int64, shape := some [rank, .unknown] }]

end TensorGraph
