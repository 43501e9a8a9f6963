import TensorGraph.Tensor.Basic

/-!
# Faults of operators

Why an operator cannot be applied to its inputs, and the inputs that it is applied to.
-/

namespace TensorGraph

/-- Why an operator fails. -/
inductive OpFault where
  | unsupportedType
  | incompatibleShapes (reason : String)
  | missingInputs
  | invalidValue (reason : String)
  | unsupportedValue (reason : String)
  deriving DecidableEq, Repr

namespace OpFault

/-- The words that describe a fault. -/
def message : OpFault → String
  | unsupportedType => "unsupported input type"
  | incompatibleShapes reason => "incompatible input shapes: " ++ reason
  | missingInputs => "required inputs were missing"
  | invalidValue reason => "input or attribute has invalid value: " ++ reason
  | unsupportedValue reason => "unsupported input or attribute value: " ++ reason

end OpFault

/-- The result of a kernel. -/
abbrev OpResult (α : Type) := Except OpFault α

namespace ElementType

/-- Run a computation over the elements of a type that can be computed with. -/
def dispatch {β : Type} (t : ElementType) (f : (α : Type) → [Element α] → OpResult β) :
    OpResult β :=
  match t with
  | .float32 => f Binary32
  | .float64 => f Binary64
  | .int64 => f Int64
  | .int32 => f Int32
  | .int8 => f Int8
  | .uint8 => f UInt8
  | .bool => f Bool
  | _ => .error .unsupportedType

/-- Run a computation over the elements of a numeric type. -/
def dispatchNumeric {β : Type} (t : ElementType)
    (f : (α : Type) → [Element α] → [Arith α] → OpResult β) : OpResult β :=
  match t with
  | .float32 => f Binary32
  | .float64 => f Binary64
  | .int64 => f Int64
  | .int32 => f Int32
  | .int8 => f Int8
  | .uint8 => f UInt8
  | _ => .error .unsupportedType

/-- Run a computation over the elements of a floating-point type. -/
def dispatchReal {β : Type} (t : ElementType)
    (f : (α : Type) → [Element α] → [RealOps α] → OpResult β) : OpResult β :=
  match t with
  | .float32 => f Binary32
  | .float64 => f Binary64
  | _ => .error .unsupportedType

end ElementType

/-- A value that must be there. -/
def orFault {α : Type} (fault : OpFault) : Option α → OpResult α
  | some x => .ok x
  | none => .error fault

namespace Tensor

/-- The elements of a tensor, which must have the type asked for. -/
def arrayOf (α : Type) [Element α] (t : Tensor) : OpResult (Array α) :=
  orFault .unsupportedType (t.array? α)

/-- The integers in a tensor, which must have an integer type. -/
def intList (t : Tensor) : OpResult (List Int) :=
  (orFault .unsupportedType t.int64s?).map fun xs => xs.toList.map Int64.toInt

end Tensor

/-- The inputs of an operator.  An omitted input is `none`. -/
abbrev Inputs := List (Option Tensor)

namespace Inputs

/-- The input at a position, if it is there. -/
def get? (xs : Inputs) (i : Nat) : Option Tensor := (xs[i]?).join

/-- The input at a position. -/
def require (xs : Inputs) (i : Nat) : OpResult Tensor := orFault .missingInputs (get? xs i)

/-- The integers in the input at a position, if it is there. -/
def ints? (xs : Inputs) (i : Nat) : OpResult (Option (List Int)) :=
  match get? xs i with
  | some t => t.intList.map some
  | none => .ok none

/-- The integers in the input at a position. -/
def requireInts (xs : Inputs) (i : Nat) : OpResult (List Int) := do
  orFault .missingInputs (← ints? xs i)

/-- All inputs that are there. -/
def present (xs : Inputs) : List Tensor := xs.filterMap fun x => x

end Inputs

/-- The dimension that a possibly negative axis counts. -/
def resolveAxis? (rank : Nat) (axis : Int) : Option Nat :=
  let resolved := if axis < 0 then axis + rank else axis
  if resolved < 0 ∨ (rank : Int) ≤ resolved then none else some resolved.toNat

/-- The dimension that a possibly negative axis counts. -/
def resolveAxis (rank : Nat) (axis : Int) : OpResult Nat :=
  orFault (.invalidValue "axis is invalid") (resolveAxis? rank axis)

/-- The dimensions that several axes count.  None may be named twice. -/
def resolveAxes (rank : Nat) (axes : List Int) : OpResult (List Nat) :=
  axes.foldlM (fun found axis => do
    let axis ← resolveAxis rank axis
    if found.contains axis then .error (.invalidValue "axes contain duplicates")
    else return found ++ [axis]) []

/-- Integers as sizes.  None may be negative. -/
def toSizes (values : List Int) : OpResult (List Nat) :=
  if values.all (0 ≤ ·) then .ok (values.map Int.toNat)
  else .error (.invalidValue "size is negative")

end TensorGraph
