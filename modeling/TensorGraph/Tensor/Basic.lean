import TensorGraph.Number.Arith
import TensorGraph.Tensor.ElementType

/-!
# Tensors

A tensor is a shape with elements in row-major order.  Elements of the seven types that can be
computed with are stored by type; of all others only the type is known.  A tensor that was read
from a message keeps the message, so that it can be written back as it was.
-/

namespace TensorGraph

/-- The elements of a tensor. -/
inductive Elements where
  | float32 (xs : Array Binary32)
  | float64 (xs : Array Binary64)
  | int64 (xs : Array Int64)
  | int32 (xs : Array Int32)
  | int8 (xs : Array Int8)
  | uint8 (xs : Array UInt8)
  | bool (xs : Array Bool)
  /-- Elements that are not available for computing. -/
  | opaqueOf (type : ElementType)
  deriving DecidableEq, Repr

/-- The number of elements of a tensor with the given shape. -/
def elementCount (shape : List Nat) : Nat := shape.foldl (· * ·) 1

/-- A tensor. -/
structure Tensor where
  shape : List Nat
  elements : Elements
  /-- The message that the tensor was read from. -/
  source : Option Message.Tensor := none
  deriving DecidableEq, Repr

namespace Elements

def elementType : Elements → ElementType
  | float32 _ => .float32
  | float64 _ => .float64
  | int64 _ => .int64
  | int32 _ => .int32
  | int8 _ => .int8
  | uint8 _ => .uint8
  | bool _ => .bool
  | opaqueOf t => t

/-- Whether the elements are available for computing. -/
def isEvaluable : Elements → Bool
  | opaqueOf _ => false
  | _ => true

/-- The number of elements that are stored. -/
def count : Elements → Nat
  | float32 xs => xs.size
  | float64 xs => xs.size
  | int64 xs => xs.size
  | int32 xs => xs.size
  | int8 xs => xs.size
  | uint8 xs => xs.size
  | bool xs => xs.size
  | opaqueOf _ => 0

end Elements

/-- Types of elements that can be computed with. -/
class Element (α : Type) extends Inhabited α where
  type : ElementType
  wrap : Array α → Elements
  unwrap? : Elements → Option (Array α)
  toBinary64 : α → Binary64
  ofBinary64 : Binary64 → α
  ofInt64 : Int64 → α

instance : Element Binary32 where
  type := .float32
  wrap := .float32
  unwrap?
    | .float32 xs => some xs
    | _ => none
  toBinary64 := Binary32.widen
  ofBinary64 := .narrow
  ofInt64 := .ofInt64

instance : Element Binary64 where
  type := .float64
  wrap := .float64
  unwrap?
    | .float64 xs => some xs
    | _ => none
  toBinary64 x := x
  ofBinary64 x := x
  ofInt64 := .ofInt64

instance : Element Int64 where
  type := .int64
  wrap := .int64
  unwrap?
    | .int64 xs => some xs
    | _ => none
  toBinary64 := .ofInt64
  ofBinary64 x := x.toFloat.toInt64
  ofInt64 v := v

instance : Element Int32 where
  type := .int32
  wrap := .int32
  unwrap?
    | .int32 xs => some xs
    | _ => none
  toBinary64 x := .ofInt64 x.toInt64
  ofBinary64 x := x.toFloat.toInt32
  ofInt64 := Int64.toInt32

instance : Element Int8 where
  type := .int8
  wrap := .int8
  unwrap?
    | .int8 xs => some xs
    | _ => none
  toBinary64 x := .ofInt64 x.toInt64
  ofBinary64 x := x.toFloat.toInt8
  ofInt64 := Int64.toInt8

instance : Element UInt8 where
  type := .uint8
  wrap := .uint8
  unwrap?
    | .uint8 xs => some xs
    | _ => none
  toBinary64 x := .ofInt64 x.toUInt64.toInt64
  ofBinary64 x := x.toFloat.toUInt8
  ofInt64 v := v.toUInt64.toUInt8

instance : Element Bool where
  type := .bool
  wrap := .bool
  unwrap?
    | .bool xs => some xs
    | _ => none
  toBinary64 x := if x then .one else .zero
  ofBinary64 x := !x.eq .zero
  ofInt64 v := v != 0

namespace Elements

/-- The elements of an integer or boolean tensor as integers. -/
def toInt64s? : Elements → Option (Array Int64)
  | int64 xs => some xs
  | int32 xs => some (xs.map Int32.toInt64)
  | int8 xs => some (xs.map Int8.toInt64)
  | uint8 xs => some (xs.map fun x => x.toUInt64.toInt64)
  | bool xs => some (xs.map fun x => if x then 1 else 0)
  | _ => none

/-- The elements as double-precision numbers. -/
def toBinary64s? : Elements → Option (Array Binary64)
  | float32 xs => some (xs.map Element.toBinary64)
  | float64 xs => some (xs.map Element.toBinary64)
  | int64 xs => some (xs.map Element.toBinary64)
  | int32 xs => some (xs.map Element.toBinary64)
  | int8 xs => some (xs.map Element.toBinary64)
  | uint8 xs => some (xs.map Element.toBinary64)
  | bool xs => some (xs.map Element.toBinary64)
  | opaqueOf _ => none

/-- Convert integers to elements of a type. -/
def ofInt64s? (type : ElementType) (xs : Array Int64) : Option Elements :=
  match type with
  | .float32 => some (float32 (xs.map Element.ofInt64))
  | .float64 => some (float64 (xs.map Element.ofInt64))
  | .int64 => some (int64 (xs.map Element.ofInt64))
  | .int32 => some (int32 (xs.map Element.ofInt64))
  | .int8 => some (int8 (xs.map Element.ofInt64))
  | .uint8 => some (uint8 (xs.map Element.ofInt64))
  | .bool => some (bool (xs.map Element.ofInt64))
  | _ => none

/-- Convert double-precision numbers to elements of a type.  Conversions to integers cut off the
fraction and hold to the range of the type. -/
def ofBinary64s? (type : ElementType) (xs : Array Binary64) : Option Elements :=
  match type with
  | .float32 => some (float32 (xs.map Element.ofBinary64))
  | .float64 => some (float64 (xs.map Element.ofBinary64))
  | .int64 => some (int64 (xs.map Element.ofBinary64))
  | .int32 => some (int32 (xs.map Element.ofBinary64))
  | .int8 => some (int8 (xs.map Element.ofBinary64))
  | .uint8 => some (uint8 (xs.map Element.ofBinary64))
  | .bool => some (bool (xs.map Element.ofBinary64))
  | _ => none

end Elements

namespace Tensor

/-- A tensor of computed elements. -/
def ofArray {α : Type} [Element α] (shape : List Nat) (xs : Array α) : Tensor :=
  { shape := shape, elements := Element.wrap xs }

/-- A tensor without dimensions. -/
def scalar {α : Type} [Element α] (x : α) : Tensor := ofArray [] #[x]

/-- A tensor with one dimension. -/
def vector {α : Type} [Element α] (xs : Array α) : Tensor := ofArray [xs.size] xs

def elementType (t : Tensor) : ElementType := t.elements.elementType

def rank (t : Tensor) : Nat := t.shape.length

/-- The number of elements. -/
def size (t : Tensor) : Nat := elementCount t.shape

/-- The number of bytes of all elements. -/
def byteSize (t : Tensor) : Nat := t.size * t.elementType.size

/-- Whether the elements are available for computing. -/
def isEvaluable (t : Tensor) : Bool := t.elements.isEvaluable

/-- The elements, if they have the type asked for. -/
def array? (α : Type) [Element α] (t : Tensor) : Option (Array α) := Element.unwrap? t.elements

/-- The only element of a tensor with one element of the type asked for. -/
def item? (α : Type) [Element α] (t : Tensor) : Option α :=
  match t.array? α with
  | some xs => if xs.size = 1 then xs[0]? else none
  | none => none

/-- The elements of an integer or boolean tensor as integers. -/
def int64s? (t : Tensor) : Option (Array Int64) := t.elements.toInt64s?

/-- Build a tensor if the number of elements fits the shape. -/
def ofElements? (shape : List Nat) (elements : Elements) : Option Tensor :=
  if elementCount shape = elements.count then some { shape := shape, elements := elements }
  else none

/-- A tensor of a type from integers. -/
def ofInt64s? (type : ElementType) (shape : List Nat) (xs : Array Int64) : Option Tensor := do
  ofElements? shape (← Elements.ofInt64s? type xs)

/-- A tensor of a type from double-precision numbers. -/
def ofBinary64s? (type : ElementType) (shape : List Nat) (xs : Array Binary64) : Option Tensor := do
  ofElements? shape (← Elements.ofBinary64s? type xs)

/-- A tensor of zeros. -/
def zeros? (type : ElementType) (shape : List Nat) : Option Tensor :=
  ofBinary64s? type shape (Array.replicate (elementCount shape) .zero)

/-- Convert to another type.  A tensor that has the type already is unchanged. -/
def cast? (t : Tensor) (type : ElementType) : Option Tensor :=
  if t.elementType = type then some t
  else if t.elementType.isFloat then do
    ofBinary64s? type t.shape (← t.elements.toBinary64s?)
  else do
    ofInt64s? type t.shape (← t.elements.toInt64s?)

/-- The same elements in another shape, if it holds as many. -/
def reshaped? (t : Tensor) (shape : List Nat) : Option Tensor :=
  if elementCount shape = t.size ∧ t.isEvaluable then
    some { shape := shape, elements := t.elements }
  else none

/-- The name in the message that the tensor was read from. -/
def sourceName (t : Tensor) : Option String := t.source.bind Message.Tensor.name

/-- Whether two tensors have the same type, shape and elements, bit for bit.  Elements that are not
available are the same if their messages store them alike inside the file. -/
def sameContents (a b : Tensor) : Bool :=
  a.elementType = b.elementType && a.shape = b.shape &&
    match a.elements, b.elements with
    | .opaqueOf _, .opaqueOf _ =>
      match a.source, b.source with
      | some p, some q =>
        p.rawData = q.rawData && p.stringData = q.stringData && p.int32Data = q.int32Data &&
          p.uint64Data = q.uint64Data && p.externalData.isEmpty && q.externalData.isEmpty
      | _, _ => false
    | x, y => x = y

end Tensor
end TensorGraph
