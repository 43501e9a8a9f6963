import TensorGraph.Message.Basic

/-!
# Element types of tensors

Seven of the element types can be computed with; the elements of the others are only kept.
-/

namespace TensorGraph

/-- The type of a tensor's elements. -/
inductive ElementType where
  | float32
  | uint8
  | int8
  | uint16
  | int16
  | int32
  | int64
  | string
  | bool
  | float16
  | float64
  | uint32
  | uint64
  | bfloat16
  deriving DecidableEq, Repr, Inhabited

namespace ElementType

/-- The type with a given code. -/
def ofCode? (code : Int32) : Option ElementType :=
  if code = 1 then some float32
  else if code = 2 then some uint8
  else if code = 3 then some int8
  else if code = 4 then some uint16
  else if code = 5 then some int16
  else if code = 6 then some int32
  else if code = 7 then some int64
  else if code = 8 then some string
  else if code = 9 then some bool
  else if code = 10 then some float16
  else if code = 11 then some float64
  else if code = 12 then some uint32
  else if code = 13 then some uint64
  else if code = 16 then some bfloat16
  else none

/-- The code of a type. -/
def code : ElementType → Int32
  | float32 => 1
  | uint8 => 2
  | int8 => 3
  | uint16 => 4
  | int16 => 5
  | int32 => 6
  | int64 => 7
  | string => 8
  | bool => 9
  | float16 => 10
  | float64 => 11
  | uint32 => 12
  | uint64 => 13
  | bfloat16 => 16

@[simp] theorem ofCode?_code (t : ElementType) : ofCode? t.code = some t := by
  cases t <;> rfl

/-- The number of bytes of an element.  A string counts as a pointer. -/
def size : ElementType → Nat
  | bool | uint8 | int8 => 1
  | uint16 | int16 | float16 | bfloat16 => 2
  | float32 | int32 | uint32 => 4
  | int64 | uint64 | float64 | string => 8

/-- Whether the elements are floating-point numbers. -/
def isFloat : ElementType → Bool
  | float32 | float64 | float16 | bfloat16 => true
  | _ => false

/-- The name of a type. -/
def name : ElementType → String
  | float32 => "float32"
  | uint8 => "uint8"
  | int8 => "int8"
  | uint16 => "uint16"
  | int16 => "int16"
  | int32 => "int32"
  | int64 => "int64"
  | string => "string"
  | bool => "bool"
  | float16 => "float16"
  | float64 => "float64"
  | uint32 => "uint32"
  | uint64 => "uint64"
  | bfloat16 => "bfloat16"

/-- The name of a type in the format's schema, in camel case. -/
def schemaName : ElementType → String
  | float32 => "Float"
  | uint8 => "Uint8"
  | int8 => "Int8"
  | uint16 => "Uint16"
  | int16 => "Int16"
  | int32 => "Int32"
  | int64 => "Int64"
  | string => "String"
  | bool => "Bool"
  | float16 => "Float16"
  | float64 => "Double"
  | uint32 => "Uint32"
  | uint64 => "Uint64"
  | bfloat16 => "BFloat16"

end ElementType
end TensorGraph
