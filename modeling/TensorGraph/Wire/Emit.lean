import TensorGraph.Wire.Field

/-!
# Writing fields

Each function gives the bytes of one field with its tag.  A message is the concatenation of its
fields.  Packed lists without elements are not written at all.
-/

namespace TensorGraph
namespace Wire

/-- The tag of a field: its number and how its value is stored.  A number that needs more than 61
bits loses its high bits. -/
def tag (number wireType : Nat) : Bytes :=
  Varint.write ((number * 8 + wireType) % UInt64.size)

/-- The bytes of a text in UTF-8. -/
def utf8 (s : String) : Bytes := s.toUTF8.data.toList

namespace Emit

/-- A variable-length integer. -/
def varint (number : Nat) (v : UInt64) : Bytes := tag number 0 ++ Varint.write v.toNat

/-- A signed 64-bit integer. -/
def int64 (number : Nat) (v : Int64) : Bytes := varint number v.toUInt64

/-- A signed 32-bit integer, which is extended to 64 bits. -/
def int32 (number : Nat) (v : Int32) : Bytes := int64 number v.toInt64

/-- Eight bytes, least significant first. -/
def fixed64 (number : Nat) (v : UInt64) : Bytes := tag number 1 ++ toLittleEndian 8 v.toNat

/-- Four bytes, least significant first. -/
def fixed32 (number : Nat) (v : UInt32) : Bytes := tag number 5 ++ toLittleEndian 4 v.toNat

/-- Bytes with their length in front. -/
def bytes (number : Nat) (payload : Bytes) : Bytes :=
  tag number 2 ++ Varint.write payload.length ++ payload

/-- Text in UTF-8. -/
def string (number : Nat) (s : String) : Bytes := bytes number (utf8 s)

/-- A packed list of variable-length integers. -/
def varints (number : Nat) (vs : List UInt64) : Bytes :=
  if vs.isEmpty then [] else bytes number (vs.flatMap fun v => Varint.write v.toNat)

/-- A packed list of single-precision values, given by their bits. -/
def floats (number : Nat) (vs : List UInt32) : Bytes :=
  if vs.isEmpty then [] else bytes number (vs.flatMap fun v => toLittleEndian 4 v.toNat)

/-- A packed list of double-precision values, given by their bits. -/
def doubles (number : Nat) (vs : List UInt64) : Bytes :=
  if vs.isEmpty then [] else bytes number (vs.flatMap fun v => toLittleEndian 8 v.toNat)

/-- An optional field. -/
def optional {α : Type} (emit : α → Bytes) : Option α → Bytes
  | none => []
  | some v => emit v

end Emit
end Wire
end TensorGraph
