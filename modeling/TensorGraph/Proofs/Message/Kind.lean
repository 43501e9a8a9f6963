import Mathlib
import TensorGraph.Proofs.Message.RoundTrip

/-!
# Kinds of messages

Input:

* one of the twelve kinds of messages, with its reader and its writer.

A message can be written in many ways: its fields in another order, a list packed or not, an integer
in more bytes than it needs, a field that holds one value more than once.  The reader takes all of
them to the same message, and the writer picks one of them.

Main result:

* `Message.Kind.round_trip`: what was written is read back, and what was read is clean, so it can be
  written and read again without a change.
-/

namespace TensorGraph
namespace Message

open Wire (Bytes DecodeError)

/-- A kind of message. -/
inductive Kind where
  | entry
  | tensor
  | dimension
  | shape
  | tensorType
  | valueType
  | value
  | operatorSet
  | graph
  | node
  | nodeAttribute
  | model
  deriving DecidableEq, Repr

namespace Kind

/-- The messages of a kind. -/
def Carrier : Kind → Type
  | entry => Entry
  | tensor => Tensor
  | dimension => Dimension
  | shape => Shape
  | tensorType => TensorType
  | valueType => ValueType
  | value => Value
  | operatorSet => OperatorSet
  | graph => Graph
  | node => Node
  | nodeAttribute => Attribute
  | model => Model

/-- Read a message of a kind. -/
def decode : (k : Kind) → Bytes → Except DecodeError k.Carrier
  | entry => Entry.decode
  | tensor => Tensor.decode
  | dimension => Dimension.decode
  | shape => Shape.decode
  | tensorType => TensorType.decode
  | valueType => ValueType.decode
  | value => Value.decode
  | operatorSet => OperatorSet.decode
  | graph => Graph.decode
  | node => Node.decode
  | nodeAttribute => Attribute.decode
  | model => Model.decode

/-- Write a message of a kind. -/
def encode : (k : Kind) → k.Carrier → Bytes
  | entry => Entry.encode
  | tensor => Tensor.encode
  | dimension => Dimension.encode
  | shape => Shape.encode
  | tensorType => TensorType.encode
  | valueType => ValueType.encode
  | value => Value.encode
  | operatorSet => OperatorSet.encode
  | graph => Graph.encode
  | node => Node.encode
  | nodeAttribute => Attribute.encode
  | model => Model.encode

/-- Whether the bytes of a message that were not understood are fields with numbers that messages of
its kind do not know, at every depth. -/
def Clean : (k : Kind) → k.Carrier → Prop
  | entry => Entry.Clean
  | tensor => Tensor.Clean
  | dimension => Dimension.Clean
  | shape => Shape.Clean
  | tensorType => TensorType.Clean
  | valueType => ValueType.Clean
  | value => Value.Clean
  | operatorSet => OperatorSet.Clean
  | graph => Graph.Clean
  | node => Node.Clean
  | nodeAttribute => Attribute.Clean
  | model => Model.Clean

variable {k : Kind}

/-- A clean message that was written is read back. -/
theorem decode_encode {m : k.Carrier} (h : k.Clean m) (short : (k.encode m).length < 2 ^ 64) :
    k.decode (k.encode m) = .ok m := by
  cases k with
  | entry => exact Entry.decode_encode h short
  | tensor => exact Tensor.decode_encode h short
  | dimension => exact Dimension.decode_encode h short
  | shape => exact Shape.decode_encode h short
  | tensorType => exact TensorType.decode_encode h short
  | valueType => exact ValueType.decode_encode h short
  | value => exact Value.decode_encode h short
  | operatorSet => exact OperatorSet.decode_encode h short
  | graph => exact Graph.decode_encode h short
  | node => exact Node.decode_encode h short
  | nodeAttribute => exact Attribute.decode_encode h short
  | model => exact Model.decode_encode h short

/-- A message that was read is clean. -/
theorem ensures_decode (k : Kind) (bytes : Bytes) : Ensures (k.decode bytes) k.Clean := by
  cases k with
  | entry => exact Entry.ensures_decode bytes
  | tensor => exact Tensor.ensures_decode bytes
  | dimension => exact Dimension.ensures_decode bytes
  | shape => exact Shape.ensures_decode bytes
  | tensorType => exact TensorType.ensures_decode bytes
  | valueType => exact ValueType.ensures_decode bytes
  | value => exact Value.ensures_decode bytes
  | operatorSet => exact OperatorSet.ensures_decode bytes
  | graph => exact Graph.ensures_decode bytes
  | node => exact Node.ensures_decode bytes
  | nodeAttribute => exact Attribute.ensures_decode bytes
  | model => exact Model.ensures_decode bytes

/-- The codec of each kind of message goes round: a clean message that is written is read back, and
a message that was read from any bytes is written in a form from which it is read again and that does
not change when it is written again.  The length of what is written is a 64-bit number, as in all
bytes that fit into memory; the prefix that holds the length of a nested message has no room for
more. -/
theorem round_trip (k : Kind) :
    (∀ m, k.Clean m → (k.encode m).length < 2 ^ 64 → k.decode (k.encode m) = .ok m) ∧
    ∀ bytes m, k.decode bytes = .ok m → (k.encode m).length < 2 ^ 64 →
      k.decode (k.encode m) = .ok m ∧
        ∀ m', k.decode (k.encode m) = .ok m' → k.encode m' = k.encode m := by
  refine ⟨fun m clean short => decode_encode clean short, fun bytes m hread short => ?_⟩
  have again := decode_encode (ensures_decode k bytes m hread) short
  refine ⟨again, fun m' hread' => ?_⟩
  rw [again] at hread'
  cases hread'
  rfl

/-- A node with a nested graph, and fields that are not understood at both depths. -/
def nestedNode : Node where
  opType := some "If"
  attributes := [{
    name := some "then_branch"
    graph := some { name := some "g", unknown := [0xf8, 0x01, 0x07] }
    type := some AttributeCode.graph }]
  unknown := [0xd8, 0x04, 0x05]

/-- Bytes of a tensor: its name twice, its dimensions alone and packed, its type in more bytes than
it needs, and a field that is not understood between them. -/
def scatteredTensor : Bytes :=
  [0x42, 0x01, 0x61, 0x08, 0x02, 0xd8, 0x04, 0x05, 0x0a, 0x02, 0x03, 0x04, 0x10, 0x87, 0x00, 0x42,
    0x01, 0x62]

/-- The tensor in these bytes. -/
def gatheredTensor : Tensor where
  dims := [2, 3, 4]
  dataType := some TypeCode.int64
  name := some "b"
  unknown := [0xd8, 0x04, 0x05]

/-- The node is read back, and the tensor is written in another form from which it is read again. -/
theorem round_trip_nested_and_scattered :
    node.Clean nestedNode ∧ (node.encode nestedNode).length < 2 ^ 64 ∧
      node.decode (node.encode nestedNode) = .ok nestedNode ∧
      tensor.decode scatteredTensor = .ok gatheredTensor ∧
      tensor.encode gatheredTensor ≠ scatteredTensor ∧
      tensor.decode (tensor.encode gatheredTensor) = .ok gatheredTensor := by
  have clean : node.Clean nestedNode :=
    ensures_decode node (node.encode nestedNode) nestedNode (by cbv)
  have short : (node.encode nestedNode).length < 2 ^ 64 := by cbv
  have hread : tensor.decode scatteredTensor = .ok gatheredTensor := by cbv
  exact ⟨clean, short, (round_trip node).1 nestedNode clean short, hread, by decide +kernel,
    ((round_trip tensor).2 scatteredTensor gatheredTensor hread (by cbv)).1⟩

end Kind
end Message
end TensorGraph
