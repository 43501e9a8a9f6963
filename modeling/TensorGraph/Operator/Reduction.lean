import TensorGraph.Facts.Elementwise
import TensorGraph.Tensor.Index

/-!
# Reductions

Operators that combine the elements along some axes: sums, means, products, extremes, the positions
of extremes, and the normalization of exponentials.
-/

namespace TensorGraph

/-- How elements are combined. -/
inductive ReduceKind where
  | sum
  | mean
  | max
  | min
  | prod
  deriving DecidableEq, Repr

/-- A reduction.  The axes are an attribute or the second input; without axes all are reduced, or
none if `noopWithEmptyAxes` holds. -/
structure Reduction where
  kind : ReduceKind
  axes : Option (List Int) := none
  keepDims : Bool := true
  noopWithEmptyAxes : Bool := false
  deriving DecidableEq, Repr

/-- Replace the dimensions at some axes by 1. -/
def reducedShape {δ : Type} (shape : List δ) (axes : List Nat) (one : δ) : List δ :=
  shape.zipIdx.map fun (d, i) => if axes.contains i then one else d

/-- Leave out the dimensions at some axes. -/
def droppedShape {δ : Type} (shape : List δ) (axes : List Nat) : List δ :=
  (shape.zipIdx.filter fun (_, i) => !axes.contains i).map Prod.fst

namespace ReduceKind

/-- Take in one more element. -/
def combine {α : Type} [Arith α] : ReduceKind → α → α → α
  | sum, acc, x | mean, acc, x => RingOps.add acc x
  | prod, acc, x => RingOps.mul acc x
  | max, acc, x => Arith.max acc x
  | min, acc, x => Arith.min acc x

/-- The result for no elements, if there is one. -/
def emptyValue {α : Type} [Arith α] : ReduceKind → Option α
  | sum => some RingOps.zero
  | prod => some RingOps.one
  | mean | max | min => none

/-- The result for the elements of one group, in order. -/
def ofGroup {α : Type} [Arith α] [Element α] (kind : ReduceKind) : List α → Option α
  | [] => kind.emptyValue
  | first :: rest =>
    let total := rest.foldl kind.combine first
    match kind with
    | mean => Arith.div? total (Element.ofInt64 (.ofNat (rest.length + 1)))
    | _ => some total

end ReduceKind

/-- The place in the reduced tensor of the element at an index. -/
def reducedOffset (axes : List Nat) (outStrides : List Nat) (index : List Nat) : Nat :=
  (index.zip outStrides).zipIdx.foldl (fun offset ((i, step), dim) =>
    if axes.contains dim then offset else offset + i * step) 0

/-- The elements of each group, in row-major order. -/
def reduceGroups {α : Type} (shape : List Nat) (axes : List Nat) (xs : Array α) :
    Array (List α) :=
  let outShape := reducedShape shape axes 1
  let outStrides := strides outShape
  let groups := ((indexes shape).zip xs.toList).foldl (fun (groups : Array (List α)) (index, x) =>
    groups.modify (reducedOffset axes outStrides index) (x :: ·))
    (Array.replicate (elementCount outShape) [])
  groups.map List.reverse

/-- Reduce some axes to size 1. -/
def reduceTensor (α : Type) [Element α] [Arith α] (t : Tensor) (axes : List Nat)
    (kind : ReduceKind) : OpResult Tensor := do
  let xs ← t.arrayOf α
  let out := (reduceGroups t.shape axes xs).toList.mapM fun group => kind.ofGroup group
  let out ← orFault (.invalidValue "cannot reduce over an empty axis") out
  return .ofArray (reducedShape t.shape axes 1) out.toArray

/-- The axes to reduce, or `none` if the input stays as it is. -/
def reduceAxes (rank : Nat) (axes : Option (List Int)) (noopWithEmptyAxes : Bool) :
    OpResult (Option (List Nat)) :=
  match axes with
  | some (axis :: rest) => (resolveAxes rank (axis :: rest)).map some
  | _ => if noopWithEmptyAxes then .ok none else .ok (some (List.range rank))

/-- The same elements in another shape. -/
def reshapeOrFault (t : Tensor) (shape : List Nat) : OpResult Tensor :=
  orFault .unsupportedType (t.reshaped? shape)

namespace Reduction

def name (r : Reduction) : String :=
  match r.kind with
  | .sum => "ReduceSum"
  | .mean => "ReduceMean"
  | .max => "ReduceMax"
  | .min => "ReduceMin"
  | .prod => "ReduceProd"

def run (r : Reduction) (inputs : Inputs) : OpResult Tensor := do
  let t ← inputs.require 0
  let axes ← match r.axes with
    | some axes => .ok (some axes)
    | none => inputs.ints? 1
  match ← reduceAxes t.rank axes r.noopWithEmptyAxes with
  | none => return t
  | some axes =>
    let out ← t.elementType.dispatchNumeric fun α _ _ => reduceTensor α t axes r.kind
    if r.keepDims then return out else reshapeOrFault out (droppedShape t.shape axes)

/-- The sum or product of known elements. -/
def foldValues (kind : ReduceKind) (values : List SizeExpr) : Option SizeExpr :=
  match kind with
  | .prod => some (values.foldl SizeExpr.times (.const 1))
  | .sum => some (values.foldl SizeExpr.plus (.const 0))
  | _ => none

/-- The axes, if they are known: `some none` if none are given. -/
def knownAxes (axes : Option (List Int)) (inputs : InputFacts) : Option (Option (List Int)) :=
  match axes, inputs.get? 1 with
  | some axes, _ => some (some axes)
  | none, some f => f.integers?.map some
  | none, none => some none

def infer (r : Reduction) (inputs : InputFacts) : FactsResult (List Facts) := do
  let input ← inputs.require 0
  match input.shape, knownAxes r.axes inputs with
  | some shape, some axes =>
    match ← (reduceAxes shape.length axes r.noopWithEmptyAxes).toFacts with
    | none => return [input]
    | some axes =>
      let out :=
        if r.keepDims then reducedShape shape axes (.fixed 1) else droppedShape shape axes
      let values :=
        if shape.length = 1 then do return [← foldValues r.kind (← input.values)] else none
      return [{ type := input.type, shape := some out, values := values }]
  | _, _ => return [{ type := input.type }]

end Reduction

/-- The position of the largest or the smallest element along an axis. -/
structure ArgSelect where
  largest : Bool
  axis : Int := 0
  keepDims : Bool := true
  /-- Whether the last of several equal elements counts. -/
  selectLast : Bool := false
  deriving DecidableEq, Repr

/-- The numbers of elements before, at and after an axis. -/
def splitAtAxis (shape : List Nat) (axis : Nat) : Nat × Nat × Nat :=
  (elementCount (shape.take axis), shape.getD axis 1, elementCount (shape.drop (axis + 1)))

/-- The elements along an axis, for each index before and after it. -/
def axisLines {α : Type} [Inhabited α] (outer size inner : Nat) (xs : Array α) : List (List α) :=
  (List.range outer).flatMap fun o => (List.range inner).map fun i =>
    (List.range size).map fun k => xs.getD ((o * size + k) * inner + i) default

namespace ArgSelect

def name (a : ArgSelect) : String := if a.largest then "ArgMax" else "ArgMin"

/-- The position of the chosen element of a line, which is not empty. -/
def position {α : Type} [Arith α] (a : ArgSelect) : List α → Nat
  | [] => 0
  | first :: rest =>
    (rest.foldl (fun (k, best, current) x =>
      let better := if a.largest then Arith.lt current x else Arith.lt x current
      if better || (a.selectLast && Arith.eq x current) then (k + 1, k, x)
      else (k + 1, best, current)) (1, 0, first)).2.1

def runAt (α : Type) [Element α] [Arith α] (a : ArgSelect) (t : Tensor) (axis : Nat) :
    OpResult Tensor := do
  let xs ← t.arrayOf α
  let (outer, size, inner) := splitAtAxis t.shape axis
  if size = 0 then .error (.invalidValue "cannot select from an empty axis")
  else
    let out := (axisLines outer size inner xs).map fun line => Int64.ofNat (a.position line)
    return .ofArray (reducedShape t.shape [axis] 1) out.toArray

def run (a : ArgSelect) (inputs : Inputs) : OpResult Tensor := do
  let t ← inputs.require 0
  let axis ← resolveAxis t.rank a.axis
  let out ← t.elementType.dispatchNumeric fun α _ _ => a.runAt α t axis
  if a.keepDims then return out else reshapeOrFault out (t.shape.eraseIdx axis)

def infer (a : ArgSelect) (inputs : InputFacts) : FactsResult (List Facts) := do
  let input ← inputs.require 0
  let shape ← match input.shape with
    | some shape => do
      let axis ← resolveFactsAxis shape.length a.axis
      .ok (some (if a.keepDims then shape.set axis (.fixed 1) else shape.eraseIdx axis))
    | none => .ok none
  return [{ type := some .int64, shape := shape }]

end ArgSelect

/-- Normalize the exponentials along an axis, or over everything from the axis on if `flatten`
holds. -/
structure Softmax where
  axis : Int
  flatten : Bool
  deriving DecidableEq, Repr

namespace Softmax

/-- Normalize one line. -/
def normalize {α : Type} [RealOps α] : List α → List α
  | [] => []
  | first :: rest =>
    let largest := rest.foldl Arith.max first
    let es := (first :: rest).map fun x => RealOps.exp (RingOps.sub x largest)
    let total := es.foldl RingOps.add RingOps.zero
    es.map fun e => RealOps.div e total

def runAt (α : Type) [Element α] [RealOps α] (s : Softmax) (t : Tensor) (axis : Nat) :
    OpResult Tensor := do
  let xs ← t.arrayOf α
  let (outer, size, inner) :=
    if s.flatten then (elementCount (t.shape.take axis), elementCount (t.shape.drop axis), 1)
    else splitAtAxis t.shape axis
  let lines := ((axisLines outer size inner xs).map fun line => (normalize line).toArray).toArray
  let out := (List.range outer).flatMap fun o => (List.range size).flatMap fun k =>
    (List.range inner).map fun i => (lines.getD (o * inner + i) #[]).getD k default
  return .ofArray t.shape out.toArray

def run (s : Softmax) (inputs : Inputs) : OpResult Tensor := do
  let t ← inputs.require 0
  let axis ← resolveAxis t.rank s.axis
  t.elementType.dispatchReal fun α _ _ => s.runAt α t axis

end Softmax
end TensorGraph
