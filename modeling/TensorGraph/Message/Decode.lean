import TensorGraph.Message.Basic

/-!
# Reading messages

Fields may come in any order.  Of a field that can hold one value the last one counts, and a list
grows by every field with its number.  A field with an unknown number is kept as it was written.

Errors name the kind of message by its full name in the format's schema package.
-/

namespace TensorGraph
namespace Message

open Wire (Bytes Field DecodeError foldFields)

/-- The full name of a kind of message. -/
def schemaName (kind : String) : Option String := some ("onnxsim_onnx::onnx::" ++ kind)

/-- Read a nested message that does not contain messages of the kind around it. -/
def nested {α : Type} (decode : Bytes → Except DecodeError α) (f : Field) :
    Except DecodeError α := do
  decode (← f.bytes).1

def Entry.decode (input : Bytes) : Except DecodeError Entry :=
  foldFields (schemaName "StringStringEntryProto") input ({} : Entry) fun m f _ =>
    match f.number with
    | 1 => do return { m with key := some (← f.string) }
    | 2 => do return { m with value := some (← f.string) }
    | _ => return { m with unknown := m.unknown ++ f.raw }

def Tensor.decode (input : Bytes) : Except DecodeError Tensor :=
  foldFields (schemaName "TensorProto") input ({} : Tensor) fun m f _ =>
    match f.number with
    | 1 => do return { m with dims := m.dims ++ (← f.varints).map UInt64.toInt64 }
    | 2 => do return { m with dataType := some (← f.int32) }
    | 4 => do return { m with floatData := m.floatData ++ (← f.floats).map Binary32.mk }
    | 5 => do
      let values := (← f.varints).map fun v => v.toUInt32.toInt32
      return { m with int32Data := m.int32Data ++ values }
    | 6 => do return { m with stringData := m.stringData ++ [(← f.bytes).1] }
    | 7 => do return { m with int64Data := m.int64Data ++ (← f.varints).map UInt64.toInt64 }
    | 8 => do return { m with name := some (← f.string) }
    | 9 => do return { m with rawData := some (← f.bytes).1 }
    | 10 => do return { m with doubleData := m.doubleData ++ (← f.doubles).map Binary64.mk }
    | 11 => do return { m with uint64Data := m.uint64Data ++ (← f.varints) }
    | 12 => do return { m with docString := some (← f.string) }
    | 13 => do return { m with externalData := m.externalData ++ [← nested Entry.decode f] }
    | 14 => do return { m with dataLocation := some (← f.int32) }
    | _ => return { m with unknown := m.unknown ++ f.raw }

def Dimension.decode (input : Bytes) : Except DecodeError Dimension :=
  foldFields (schemaName "Dimension") input ({} : Dimension) fun m f _ =>
    match f.number with
    | 1 => do return { m with value := some (← f.int64) }
    | 2 => do return { m with param := some (← f.string) }
    | 3 => do return { m with denotation := some (← f.string) }
    | _ => return { m with unknown := m.unknown ++ f.raw }

def Shape.decode (input : Bytes) : Except DecodeError Shape :=
  foldFields (schemaName "TensorShapeProto") input ({} : Shape) fun m f _ =>
    match f.number with
    | 1 => do return { m with dims := m.dims ++ [← nested Dimension.decode f] }
    | _ => return { m with unknown := m.unknown ++ f.raw }

def TensorType.decode (input : Bytes) : Except DecodeError TensorType :=
  foldFields (schemaName "TypeProtoTensor") input ({} : TensorType) fun m f _ =>
    match f.number with
    | 1 => do return { m with elementType := some (← f.int32) }
    | 2 => do return { m with shape := some (← nested Shape.decode f) }
    | _ => return { m with unknown := m.unknown ++ f.raw }

def ValueType.decode (input : Bytes) : Except DecodeError ValueType :=
  foldFields (schemaName "TypeProto") input ({} : ValueType) fun m f _ =>
    match f.number with
    | 1 => do return { m with tensorType := some (← nested TensorType.decode f) }
    | 6 => do return { m with denotation := some (← f.string) }
    | _ => return { m with unknown := m.unknown ++ f.raw }

def Value.decode (input : Bytes) : Except DecodeError Value :=
  foldFields (schemaName "ValueInfoProto") input ({} : Value) fun m f _ =>
    match f.number with
    | 1 => do return { m with name := some (← f.string) }
    | 2 => do return { m with type := some (← nested ValueType.decode f) }
    | 3 => do return { m with docString := some (← f.string) }
    | _ => return { m with unknown := m.unknown ++ f.raw }

def OperatorSet.decode (input : Bytes) : Except DecodeError OperatorSet :=
  foldFields (schemaName "OperatorSetIdProto") input ({} : OperatorSet) fun m f _ =>
    match f.number with
    | 1 => do return { m with domain := some (← f.string) }
    | 2 => do return { m with version := some (← f.int64) }
    | _ => return { m with unknown := m.unknown ++ f.raw }

mutual
def Graph.decode (input : Bytes) : Except DecodeError Graph :=
  foldFields (schemaName "GraphProto") input ({} : Graph) fun m f _fits =>
    match f.number with
    | 1 => do
      let ⟨payload, _size⟩ ← f.bytes
      return { m with nodes := m.nodes ++ [← Node.decode payload] }
    | 2 => do return { m with name := some (← f.string) }
    | 5 => do return { m with initializers := m.initializers ++ [← nested Tensor.decode f] }
    | 10 => do return { m with docString := some (← f.string) }
    | 11 => do return { m with inputs := m.inputs ++ [← nested Value.decode f] }
    | 12 => do return { m with outputs := m.outputs ++ [← nested Value.decode f] }
    | 13 => do return { m with valueInfo := m.valueInfo ++ [← nested Value.decode f] }
    | _ => return { m with unknown := m.unknown ++ f.raw }
termination_by input.length
decreasing_by exact _size ▸ _fits

def Node.decode (input : Bytes) : Except DecodeError Node :=
  foldFields (schemaName "NodeProto") input ({} : Node) fun m f _fits =>
    match f.number with
    | 1 => do return { m with inputs := m.inputs ++ [← f.string] }
    | 2 => do return { m with outputs := m.outputs ++ [← f.string] }
    | 3 => do return { m with name := some (← f.string) }
    | 4 => do return { m with opType := some (← f.string) }
    | 5 => do
      let ⟨payload, _size⟩ ← f.bytes
      return { m with attributes := m.attributes ++ [← Attribute.decode payload] }
    | 6 => do return { m with docString := some (← f.string) }
    | 7 => do return { m with domain := some (← f.string) }
    | _ => return { m with unknown := m.unknown ++ f.raw }
termination_by input.length
decreasing_by exact _size ▸ _fits

def Attribute.decode (input : Bytes) : Except DecodeError Attribute :=
  foldFields (schemaName "AttributeProto") input ({} : Attribute) fun m f _fits =>
    match f.number with
    | 1 => do return { m with name := some (← f.string) }
    | 2 => do return { m with float := some ⟨← f.float⟩ }
    | 3 => do return { m with int := some (← f.int64) }
    | 4 => do return { m with string := some (← f.bytes).1 }
    | 5 => do return { m with tensor := some (← nested Tensor.decode f) }
    | 6 => do
      let ⟨payload, _size⟩ ← f.bytes
      return { m with graph := some (← Graph.decode payload) }
    | 7 => do return { m with floats := m.floats ++ (← f.floats).map Binary32.mk }
    | 8 => do return { m with ints := m.ints ++ (← f.varints).map UInt64.toInt64 }
    | 9 => do return { m with strings := m.strings ++ [(← f.bytes).1] }
    | 10 => do return { m with tensors := m.tensors ++ [← nested Tensor.decode f] }
    | 11 => do
      let ⟨payload, _size⟩ ← f.bytes
      return { m with graphs := m.graphs ++ [← Graph.decode payload] }
    | 13 => do return { m with docString := some (← f.string) }
    | 20 => do return { m with type := some (← f.int32) }
    | 21 => do return { m with refName := some (← f.string) }
    | _ => return { m with unknown := m.unknown ++ f.raw }
termination_by input.length
decreasing_by all_goals exact _size ▸ _fits
end

def Model.decode (input : Bytes) : Except DecodeError Model :=
  foldFields (schemaName "ModelProto") input ({} : Model) fun m f _ =>
    match f.number with
    | 1 => do return { m with irVersion := some (← f.int64) }
    | 2 => do return { m with producerName := some (← f.string) }
    | 3 => do return { m with producerVersion := some (← f.string) }
    | 4 => do return { m with domain := some (← f.string) }
    | 5 => do return { m with modelVersion := some (← f.int64) }
    | 6 => do return { m with docString := some (← f.string) }
    | 7 => do return { m with graph := some (← nested Graph.decode f) }
    | 8 => do return { m with operatorSets := m.operatorSets ++ [← nested OperatorSet.decode f] }
    | 14 => do return { m with metadata := m.metadata ++ [← nested Entry.decode f] }
    | _ => return { m with unknown := m.unknown ++ f.raw }

/-- Whether the first field of a file is one with which a model can start. -/
def looksLikeModel (input : Bytes) : Bool :=
  match Field.next none input with
  | .ok (some (f, _)) =>
    if f.number = 1 || f.number = 5 then f.int64.isOk
    else if [2, 3, 4, 6, 7, 8, 14].contains f.number then f.bytes.isOk
    else false
  | _ => false

end Message
end TensorGraph
