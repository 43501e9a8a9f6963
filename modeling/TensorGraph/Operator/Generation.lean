import TensorGraph.Facts.Basic

/-!
# Constants, ranges and conversions

Operators whose output is fixed or counts up, and operators that pass their input on, possibly
converted to another type.
-/

namespace TensorGraph

/-- A tensor of a given shape with one element everywhere. -/
def runConstantOfShape (value : Tensor) (inputs : Inputs) : OpResult Tensor := do
  let shape ← toSizes (← inputs.requireInts 0)
  value.elementType.dispatch fun α _ => do
    let x ← orFault (.invalidValue "value must have one element") ((value.array? α).bind (·[0]?))
    return .ofArray shape (Array.replicate (elementCount shape) x)

def inferConstantOfShape (value : Tensor) (inputs : InputFacts) : FactsResult (List Facts) := do
  let target ← inputs.require 0
  let shape :=
    match target.dims?, target.shape with
    | some dims, _ => some dims
    | none, some (.fixed rank :: _) => some (List.replicate rank .unknown)
    | _, _ => none
  let fill := (value.int64s?.bind (·[0]?)).map fun v => SizeExpr.const v.toInt
  let values :=
    match shape, fill with
    | some [.fixed n], some v =>
      if !value.elementType.isFloat && n ≤ Facts.maxTracked then some (List.replicate n v) else none
    | some [], some v => if !value.elementType.isFloat then some [v] else none
    | _, _ => none
  return [{ type := some value.elementType, shape := shape, values := values }]

/-- The number of elements from a start up to a limit. -/
def rangeLength (start limit delta : Binary64) : OpResult Nat :=
  if delta.eq .zero then .error (.invalidValue "delta must be non-zero")
  else
    let count := ((limit.sub start).div delta).ceil
    .ok (if Binary64.lt .zero count then count.toFloat.toUInt64.toNat else 0)

/-- Evenly spaced numbers. -/
def rangeTensor {α : Type} [Element α] [Arith α] (start limit delta : α) : OpResult Tensor := do
  let count ← rangeLength (Element.toBinary64 start) (Element.toBinary64 limit)
    (Element.toBinary64 delta)
  let out := (List.range count).map fun i =>
    RingOps.add start (RingOps.mul (Element.ofInt64 (.ofNat i)) delta)
  return .vector out.toArray

def runRange (inputs : Inputs) : OpResult Tensor := do
  let start ← inputs.require 0
  start.elementType.dispatchNumeric fun α _ _ => do
    let scalar (i : Nat) : OpResult α := do
      orFault (.invalidValue "range inputs must be scalars of the same type")
        ((← inputs.require i).item? α)
    rangeTensor (← scalar 0) (← scalar 1) (← scalar 2)

/-- The only known element. -/
def singleValue? (f : Facts) : Option SizeExpr :=
  match f.values with
  | some [v] => some v
  | _ => none

/-- The number of elements of a range, and the elements if there are few. -/
def rangeFacts (start limit delta : Option SizeExpr) :
    FactsResult (Dim × Option (List SizeExpr)) :=
  match start, limit, delta with
  | some (.const s), some (.const l), some (.const d) => do
    let real (v : Int) : Binary64 := .ofInt64 (.ofInt v)
    let count ← (rangeLength (real s) (real l) (real d)).toFacts
    let values :=
      if count ≤ Facts.maxTracked then
        some ((List.range count).map fun (i : Nat) => SizeExpr.const (s + (i : Int) * d))
      else none
    return (.fixed count, values)
  | some (.const 0), some limit, some (.const 1) => .ok (.ofExpr limit, none)
  | _, _, _ => .ok (.unknown, none)

def inferRange (inputs : InputFacts) : FactsResult (List Facts) := do
  let start ← inputs.require 0
  let limit ← inputs.require 1
  let delta ← inputs.require 2
  let (count, values) ← rangeFacts (singleValue? start) (singleValue? limit) (singleValue? delta)
  let type := (start.type.or limit.type).or delta.type
  return [{ type := type, shape := some [count], values := values }]

/-- The first input, and where all of it is kept if a second output is asked for. -/
def runDropout (training : Bool) (inputs : Inputs) (outputs : Option Nat) :
    OpResult (List Tensor) := do
  let t ← inputs.require 0
  let training ← match inputs.get? 2 with
    | some mode => orFault (.invalidValue "training_mode must be a bool scalar") (mode.item? Bool)
    | none => .ok training
  if training then .error (.unsupportedValue "training mode is not supported")
  else if 1 < outputs.getD 1 then
    return [t, .ofArray t.shape (Array.replicate t.size true)]
  else return [t]

def inferDropout (inputs : InputFacts) : FactsResult (List Facts) := do
  let input ← inputs.require 0
  return [input, { type := some .bool, shape := input.shape }]

def castTensor (t : Tensor) (type : ElementType) : OpResult Tensor :=
  orFault .unsupportedType (t.cast? type)

/-- Facts about a converted value. -/
def castFacts (input : Facts) (type : Option ElementType) : Facts :=
  let values :=
    match type with
    | none => none
    | some .bool => do
      (← input.values).mapM fun v => v.constant?.map fun n => .const (if n ≠ 0 then 1 else 0)
    | some type =>
      match input.type with
      | some source => if !type.isFloat && !source.isFloat then input.values else none
      | none => none
  { type := type, shape := input.shape, values := values }

def runCast (type : ElementType) (inputs : Inputs) : OpResult Tensor := do
  castTensor (← inputs.require 0) type

def inferCast (type : ElementType) (inputs : InputFacts) : FactsResult (List Facts) := do
  return [castFacts (← inputs.require 0) (some type)]

def runCastLike (inputs : Inputs) : OpResult Tensor := do
  let t ← inputs.require 0
  castTensor t (← inputs.require 1).elementType

def inferCastLike (inputs : InputFacts) : FactsResult (List Facts) := do
  let input ← inputs.require 0
  return [castFacts input (← inputs.require 1).type]

end TensorGraph
