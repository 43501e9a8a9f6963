import TensorGraph.Malformation
import TensorGraph.Tensor.Basic

/-!
# Stored tensors

The elements of a stored tensor are raw bytes, least significant byte first, or lie in the typed
field for the element type.  A tensor that was read is written back from its message; any other is
written with raw bytes.
-/

namespace TensorGraph

open Wire (Bytes littleEndian toLittleEndian chunks)

namespace Tensor

/-- Cut raw bytes into elements of `width + 1` bytes. -/
def rawElements {α : Type} (width : Nat) (make : Nat → α) (raw : Bytes) : Option (Array α) :=
  if raw.length % (width + 1) = 0 then
    some ((chunks width raw).map fun b => make (littleEndian b)).toArray
  else none

/-- The elements of a message of the given type that is stored inside the file. -/
def storedElements (type : ElementType) (m : Message.Tensor) : Option Elements :=
  match type, m.rawData with
  | .float32, some raw => (rawElements 3 (fun n => Binary32.mk (.ofNat n)) raw).map .float32
  | .float32, none => some (.float32 m.floatData.toArray)
  | .float64, some raw => (rawElements 7 (fun n => Binary64.mk (.ofNat n)) raw).map .float64
  | .float64, none => some (.float64 m.doubleData.toArray)
  | .int64, some raw => (rawElements 7 (fun n => (UInt64.ofNat n).toInt64) raw).map .int64
  | .int64, none => some (.int64 m.int64Data.toArray)
  | .int32, some raw => (rawElements 3 (fun n => (UInt32.ofNat n).toInt32) raw).map .int32
  | .int32, none => some (.int32 m.int32Data.toArray)
  | .int8, some raw => some (.int8 (raw.map UInt8.toInt8).toArray)
  | .int8, none => some (.int8 (m.int32Data.map Int32.toInt8).toArray)
  | .uint8, some raw => some (.uint8 raw.toArray)
  | .uint8, none => some (.uint8 (m.int32Data.map fun v => v.toUInt32.toUInt8).toArray)
  | .bool, some raw => some (.bool (raw.map (· != 0)).toArray)
  | .bool, none => some (.bool (m.int32Data.map (· != 0)).toArray)
  | type, _ => some (.opaqueOf type)

/-- The sizes of a stored shape, if none is negative. -/
def storedShape (dims : List Int64) : Option (List Nat) :=
  if dims.all (0 ≤ ·) then some (dims.map fun d => d.toInt.toNat) else none

/-- Read a stored tensor. -/
def ofMessage (m : Message.Tensor) : Except Malformation Tensor :=
  let malformed (fault : TensorFault) : Except Malformation Tensor :=
    .error (.tensor (m.name.getD "") fault)
  match storedShape m.dims with
  | none => malformed .negativeDimension
  | some shape =>
    match ElementType.ofCode? (m.dataType.getD Message.TypeCode.undefined) with
    | none => malformed .unknownType
    | some type =>
      if m.dataLocation = some Message.externalLocation then
        .ok { shape := shape, elements := .opaqueOf type, source := some m }
      else
        match storedElements type m with
        | none => malformed .rawData
        | some elements =>
          if elements.isEvaluable && elements.count != elementCount shape then
            malformed .elementCount
          else .ok { shape := shape, elements := elements, source := some m }

/-- The raw bytes of elements. -/
def rawBytes : Elements → Bytes
  | .float32 xs => xs.toList.flatMap fun x => toLittleEndian 4 x.bits.toNat
  | .float64 xs => xs.toList.flatMap fun x => toLittleEndian 8 x.bits.toNat
  | .int64 xs => xs.toList.flatMap fun x => toLittleEndian 8 x.toUInt64.toNat
  | .int32 xs => xs.toList.flatMap fun x => toLittleEndian 4 x.toUInt32.toNat
  | .int8 xs => xs.toList.map Int8.toUInt8
  | .uint8 xs => xs.toList
  | .bool xs => xs.toList.map fun x => if x then 1 else 0
  | .opaqueOf _ => []

/-- Store a tensor under a name. -/
def toMessage (t : Tensor) (name : Option String) : Message.Tensor :=
  match t.source with
  | some m => { m with name := name }
  | none =>
    { dims := t.shape.map Int64.ofNat
      dataType := some t.elementType.code
      name := name
      rawData := some (rawBytes t.elements) }

end Tensor
end TensorGraph
