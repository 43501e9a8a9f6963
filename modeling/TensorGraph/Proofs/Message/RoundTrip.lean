import TensorGraph.Proofs.Message.Clean

/-!
# Written messages are read back

Input:

* a clean message whose bytes have a length below 2 ^ 64.

Algorithm:

* the reader starts from an empty message, and each field that was written fills in one field of it.

Main results:

* `Message.Graph.decode_encode` and `Message.Model.decode_encode`: reading what was written gives
  the same message.
-/

namespace TensorGraph
namespace Message

open Wire (Bytes DecodeError Emit.bytes Emit.fixed32 Emit.int32 Emit.int64 Emit.optional Emit.string
  Legible Reads)

/-- A nested message can be read back when its bytes can. -/
theorem legible {α : Type} {number : Nat} (hn : number < 2 ^ 61) {encode : α → Bytes}
    {decode : Bytes → Except DecodeError α} {x : α}
    (h : (encode x).length < 2 ^ 64 → decode (encode x) = .ok x) :
    Legible number (fun x => Emit.bytes number (encode x)) (fun x => .len (encode x))
      (nested decode) x :=
  .len hn fun short _ _ => h short

theorem legible_float {number : Nat} (hn : number < 2 ^ 61) {x : Binary32} :
    Legible number (fun x => Emit.fixed32 number (Binary32.bits x)) (fun x => .fixed32 x.bits)
      (fun f => f.float.map Binary32.mk) x :=
  .fixed32 hn fun _ _ => rfl

theorem Entry.decode_encode {m : Entry} (h : m.Clean) (short : m.encode.length < 2 ^ 64) :
    decode m.encode = .ok m := by
  refine Reads.foldFields ?_ short
  refine .append (.append
    (.optional (f := fun s o => { s with key := o }) (fun _ _ => .string (by decide))
      (fun _ _ _ => rfl) rfl)
    (.optional (f := fun s o => { s with value := o }) (fun _ _ => .string (by decide))
      (fun _ _ _ => rfl) rfl))
    (.unknown (f := fun (s : Entry) u => { s with unknown := u }) h (fun _ _ g hg => ?_) rfl)
  dsimp only
  split <;> first | rfl | (rename_i heq; rw [heq] at hg; exact absurd (by decide) hg)

theorem Tensor.decode_encode {m : Tensor} (h : m.Clean) (short : m.encode.length < 2 ^ 64) :
    decode m.encode = .ok m := by
  refine Reads.foldFields ?_ short
  refine .append (.append (.append (.append (.append (.append (.append (.append (.append
    (.append (.append (.append (.append
    (.flatMap (f := fun s xs => { s with dims := xs }) (fun _ _ => .int64 (by decide))
      (fun _ _ _ _ => rfl) rfl)
    (.optional (f := fun s o => { s with dataType := o }) (fun _ _ => .int32 (by decide))
      (fun _ _ _ => rfl) rfl))
    (.packed (f := fun s xs => { s with floatData := xs }) (.floats (by decide)) (fun _ => rfl)
      (fun _ _ _ => rfl) rfl))
    (.packed (f := fun s xs => { s with int32Data := xs }) (.varints (by decide))
      Wire.toInt32_toUInt64 (fun _ _ _ => rfl) rfl))
    (.flatMap (f := fun s xs => { s with stringData := xs }) (fun _ _ => .bytes (by decide))
      (fun _ _ _ _ => rfl) rfl))
    (.packed (f := fun s xs => { s with int64Data := xs }) (.varints (by decide))
      Int64.toInt64_toUInt64 (fun _ _ _ => rfl) rfl))
    (.optional (f := fun s o => { s with name := o }) (fun _ _ => .string (by decide))
      (fun _ _ _ => rfl) rfl))
    (.optional (f := fun s o => { s with rawData := o }) (fun _ _ => .bytes (by decide))
      (fun _ _ _ => rfl) rfl))
    (.packed (f := fun s xs => { s with doubleData := xs }) (.doubles (by decide)) (fun _ => rfl)
      (fun _ _ _ => rfl) rfl))
    (.varints (f := fun s xs => { s with uint64Data := xs }) (by decide) (fun _ _ _ => rfl) rfl))
    (.optional (f := fun s o => { s with docString := o }) (fun _ _ => .string (by decide))
      (fun _ _ _ => rfl) rfl))
    (.flatMap (f := fun s xs => { s with externalData := xs })
      (fun e he => legible (by decide) (Entry.decode_encode (h.externalData e he)))
      (fun _ _ _ _ => rfl) rfl))
    (.optional (f := fun s o => { s with dataLocation := o }) (fun _ _ => .int32 (by decide))
      (fun _ _ _ => rfl) rfl))
    (.unknown (f := fun (s : Tensor) u => { s with unknown := u }) h.unknown
      (fun _ _ g hg => ?_) rfl)
  dsimp only
  split <;> first | rfl | (rename_i heq; rw [heq] at hg; exact absurd (by decide) hg)

theorem Dimension.decode_encode {m : Dimension} (h : m.Clean) (short : m.encode.length < 2 ^ 64) :
    decode m.encode = .ok m := by
  refine Reads.foldFields ?_ short
  refine .append (.append (.append
    (.optional (f := fun s o => { s with value := o }) (fun _ _ => .int64 (by decide))
      (fun _ _ _ => rfl) rfl)
    (.optional (f := fun s o => { s with param := o }) (fun _ _ => .string (by decide))
      (fun _ _ _ => rfl) rfl))
    (.optional (f := fun s o => { s with denotation := o }) (fun _ _ => .string (by decide))
      (fun _ _ _ => rfl) rfl))
    (.unknown (f := fun (s : Dimension) u => { s with unknown := u }) h
      (fun _ _ g hg => ?_) rfl)
  dsimp only
  split <;> first | rfl | (rename_i heq; rw [heq] at hg; exact absurd (by decide) hg)

theorem Shape.decode_encode {m : Shape} (h : m.Clean) (short : m.encode.length < 2 ^ 64) :
    decode m.encode = .ok m := by
  refine Reads.foldFields ?_ short
  refine .append
    (.flatMap (f := fun s xs => { s with dims := xs })
      (fun d hd => legible (by decide) (Dimension.decode_encode (h.dims d hd)))
      (fun _ _ _ _ => rfl) rfl)
    (.unknown (f := fun (s : Shape) u => { s with unknown := u }) h.unknown
      (fun _ _ g hg => ?_) rfl)
  dsimp only
  split <;> first | rfl | (rename_i heq; rw [heq] at hg; exact absurd (by decide) hg)

theorem TensorType.decode_encode {m : TensorType} (h : m.Clean) (short : m.encode.length < 2 ^ 64) :
    decode m.encode = .ok m := by
  refine Reads.foldFields ?_ short
  refine .append (.append
    (.optional (f := fun s o => { s with elementType := o }) (fun _ _ => .int32 (by decide))
      (fun _ _ _ => rfl) rfl)
    (.optional (f := fun s o => { s with shape := o })
      (fun s hs => legible (by decide) (Shape.decode_encode (h.shape s hs)))
      (fun _ _ _ => rfl) rfl))
    (.unknown (f := fun (s : TensorType) u => { s with unknown := u }) h.unknown
      (fun _ _ g hg => ?_) rfl)
  dsimp only
  split <;> first | rfl | (rename_i heq; rw [heq] at hg; exact absurd (by decide) hg)

theorem ValueType.decode_encode {m : ValueType} (h : m.Clean) (short : m.encode.length < 2 ^ 64) :
    decode m.encode = .ok m := by
  refine Reads.foldFields ?_ short
  refine .append (.append
    (.optional (f := fun s o => { s with tensorType := o })
      (fun t ht => legible (by decide) (TensorType.decode_encode (h.tensorType t ht)))
      (fun _ _ _ => rfl) rfl)
    (.optional (f := fun s o => { s with denotation := o }) (fun _ _ => .string (by decide))
      (fun _ _ _ => rfl) rfl))
    (.unknown (f := fun (s : ValueType) u => { s with unknown := u }) h.unknown
      (fun _ _ g hg => ?_) rfl)
  dsimp only
  split <;> first | rfl | (rename_i heq; rw [heq] at hg; exact absurd (by decide) hg)

theorem Value.decode_encode {m : Value} (h : m.Clean) (short : m.encode.length < 2 ^ 64) :
    decode m.encode = .ok m := by
  refine Reads.foldFields ?_ short
  refine .append (.append (.append
    (.optional (f := fun s o => { s with name := o }) (fun _ _ => .string (by decide))
      (fun _ _ _ => rfl) rfl)
    (.optional (f := fun s o => { s with type := o })
      (fun t ht => legible (by decide) (ValueType.decode_encode (h.type t ht)))
      (fun _ _ _ => rfl) rfl))
    (.optional (f := fun s o => { s with docString := o }) (fun _ _ => .string (by decide))
      (fun _ _ _ => rfl) rfl))
    (.unknown (f := fun (s : Value) u => { s with unknown := u }) h.unknown
      (fun _ _ g hg => ?_) rfl)
  dsimp only
  split <;> first | rfl | (rename_i heq; rw [heq] at hg; exact absurd (by decide) hg)

theorem OperatorSet.decode_encode {m : OperatorSet} (h : m.Clean) (short : m.encode.length < 2 ^ 64) :
    decode m.encode = .ok m := by
  refine Reads.foldFields ?_ short
  refine .append (.append
    (.optional (f := fun s o => { s with domain := o }) (fun _ _ => .string (by decide))
      (fun _ _ _ => rfl) rfl)
    (.optional (f := fun s o => { s with version := o }) (fun _ _ => .int64 (by decide))
      (fun _ _ _ => rfl) rfl))
    (.unknown (f := fun (s : OperatorSet) u => { s with unknown := u }) h
      (fun _ _ g hg => ?_) rfl)
  dsimp only
  split <;> first | rfl | (rename_i heq; rw [heq] at hg; exact absurd (by decide) hg)

/-! ## Graphs -/

theorem Graph.eta (m : Graph) :
    Graph.mk m.nodes m.name m.initializers m.docString m.inputs m.outputs m.valueInfo m.unknown
      = m := by
  cases m
  rfl

theorem Node.eta (m : Node) :
    Node.mk m.inputs m.outputs m.name m.opType m.attributes m.docString m.domain m.unknown = m
      := by
  cases m
  rfl

theorem Attribute.eta (m : Attribute) :
    Attribute.mk m.name m.float m.int m.string m.tensor m.graph m.floats m.ints m.strings
      m.tensors m.graphs m.docString m.type m.refName m.unknown = m := by
  cases m
  rfl

theorem Attribute.encode_eq (m : Attribute) :
    m.encode =
      Emit.optional (Emit.string 1) m.name ++
      Emit.optional (fun x => Emit.fixed32 2 (Binary32.bits x)) m.float ++
      Emit.optional (Emit.int64 3) m.int ++
      Emit.optional (Emit.bytes 4) m.string ++
      Emit.optional (fun t => Emit.bytes 5 (Tensor.encode t)) m.tensor ++
      Emit.optional (fun g => Emit.bytes 6 (Graph.encode g)) m.graph ++
      each (fun x => Emit.fixed32 7 (Binary32.bits x)) m.floats ++
      each (Emit.int64 8) m.ints ++
      each (Emit.bytes 9) m.strings ++
      each (fun t => Emit.bytes 10 (Tensor.encode t)) m.tensors ++
      (m.graphs.flatMap fun g => Emit.bytes 11 (Graph.encode g)) ++
      Emit.optional (Emit.string 13) m.docString ++
      Emit.optional (Emit.int32 20) m.type ++
      Emit.optional (Emit.string 21) m.refName ++
      m.unknown := by
  rw [Attribute.encode]
  split <;> (rename_i heq; rw [heq]; rfl)

mutual
theorem Graph.decode_encode {m : Graph} (h : m.Clean) (short : m.encode.length < 2 ^ 64) :
    Graph.decode m.encode = .ok m := by
  obtain ⟨unknown, nodes, initializers, inputs, outputs, valueInfo⟩ := h
  rw [Graph.encode] at short ⊢
  rw [Graph.decode]
  have eta := congrArg (Except.ok (ε := DecodeError)) (Graph.eta m)
  refine (Reads.foldFields ?_ short).trans eta
  refine .append (.append (.append (.append (.append (.append (.append
    (.flatMap (f := fun s xs => { s with nodes := xs })
      (fun n hn => legible (by decide) (Node.decode_encode (nodes n hn)))
      (fun _ _ _ _ => rfl) rfl)
    (.optional (f := fun s o => { s with name := o }) (fun _ _ => .string (by decide))
      (fun _ _ _ => rfl) rfl))
    (.flatMap (f := fun s xs => { s with initializers := xs })
      (fun t ht => legible (by decide) (Tensor.decode_encode (initializers t ht)))
      (fun _ _ _ _ => rfl) rfl))
    (.optional (f := fun s o => { s with docString := o }) (fun _ _ => .string (by decide))
      (fun _ _ _ => rfl) rfl))
    (.flatMap (f := fun s xs => { s with inputs := xs })
      (fun v hv => legible (by decide) (Value.decode_encode (inputs v hv)))
      (fun _ _ _ _ => rfl) rfl))
    (.flatMap (f := fun s xs => { s with outputs := xs })
      (fun v hv => legible (by decide) (Value.decode_encode (outputs v hv)))
      (fun _ _ _ _ => rfl) rfl))
    (.flatMap (f := fun s xs => { s with valueInfo := xs })
      (fun v hv => legible (by decide) (Value.decode_encode (valueInfo v hv)))
      (fun _ _ _ _ => rfl) rfl))
    ?_
  refine .unknown (f := fun (s : Graph) u => { s with unknown := u }) unknown
    (fun _ _ g hg => ?_) ?_
  · dsimp only
    split <;> first | rfl | (rename_i heq; rw [heq] at hg; exact absurd (by decide) hg)
  · rfl
termination_by sizeOf m
decreasing_by exact Graph.sizeOf_nodes ‹_›

theorem Node.decode_encode {m : Node} (h : m.Clean) (short : m.encode.length < 2 ^ 64) :
    Node.decode m.encode = .ok m := by
  obtain ⟨unknown, attributes⟩ := h
  rw [Node.encode] at short ⊢
  rw [Node.decode]
  have eta := congrArg (Except.ok (ε := DecodeError)) (Node.eta m)
  refine (Reads.foldFields ?_ short).trans eta
  refine .append (.append (.append (.append (.append (.append (.append
    (.flatMap (f := fun s xs => { s with inputs := xs }) (fun _ _ => .string (by decide))
      (fun _ _ _ _ => rfl) rfl)
    (.flatMap (f := fun s xs => { s with outputs := xs }) (fun _ _ => .string (by decide))
      (fun _ _ _ _ => rfl) rfl))
    (.optional (f := fun s o => { s with name := o }) (fun _ _ => .string (by decide))
      (fun _ _ _ => rfl) rfl))
    (.optional (f := fun s o => { s with opType := o }) (fun _ _ => .string (by decide))
      (fun _ _ _ => rfl) rfl))
    (.flatMap (f := fun s xs => { s with attributes := xs })
      (fun a ha => legible (by decide) (Attribute.decode_encode (attributes a ha)))
      (fun _ _ _ _ => rfl) rfl))
    (.optional (f := fun s o => { s with docString := o }) (fun _ _ => .string (by decide))
      (fun _ _ _ => rfl) rfl))
    (.optional (f := fun s o => { s with domain := o }) (fun _ _ => .string (by decide))
      (fun _ _ _ => rfl) rfl))
    ?_
  refine .unknown (f := fun (s : Node) u => { s with unknown := u }) unknown
    (fun _ _ g hg => ?_) ?_
  · dsimp only
    split <;> first | rfl | (rename_i heq; rw [heq] at hg; exact absurd (by decide) hg)
  · rfl
termination_by sizeOf m
decreasing_by exact Node.sizeOf_attributes ‹_›

theorem Attribute.decode_encode {m : Attribute} (h : m.Clean) (short : m.encode.length < 2 ^ 64) :
    Attribute.decode m.encode = .ok m := by
  obtain ⟨unknown, tensor, tensors, graph, graphs⟩ := h
  rw [Attribute.encode_eq] at short ⊢
  rw [Attribute.decode]
  have eta := congrArg (Except.ok (ε := DecodeError)) (Attribute.eta m)
  refine (Reads.foldFields ?_ short).trans eta
  refine .append (.append (.append (.append (.append (.append (.append (.append (.append (.append (.append (.append (.append (.append
    (.optional (f := fun s o => { s with name := o }) (fun _ _ => .string (by decide))
      (fun _ _ _ => rfl) rfl)
    (.optional (f := fun s o => { s with float := o }) (fun _ _ => legible_float (by decide))
      (fun _ _ _ => rfl) rfl))
    (.optional (f := fun s o => { s with int := o }) (fun _ _ => .int64 (by decide))
      (fun _ _ _ => rfl) rfl))
    (.optional (f := fun s o => { s with string := o }) (fun _ _ => .bytes (by decide))
      (fun _ _ _ => rfl) rfl))
    (.optional (f := fun s o => { s with tensor := o })
      (fun t ht => legible (by decide) (Tensor.decode_encode (tensor t ht)))
      (fun _ _ _ => rfl) rfl))
    (.optional (f := fun s o => { s with graph := o })
      (fun g hg => legible (by decide) (Graph.decode_encode (graph g hg)))
      (fun _ _ _ => rfl) rfl))
    (.flatMap (f := fun s xs => { s with floats := xs }) (fun _ _ => legible_float (by decide))
      (fun _ _ _ _ => rfl) rfl))
    (.flatMap (f := fun s xs => { s with ints := xs }) (fun _ _ => .int64 (by decide))
      (fun _ _ _ _ => rfl) rfl))
    (.flatMap (f := fun s xs => { s with strings := xs }) (fun _ _ => .bytes (by decide))
      (fun _ _ _ _ => rfl) rfl))
    (.flatMap (f := fun s xs => { s with tensors := xs })
      (fun t ht => legible (by decide) (Tensor.decode_encode (tensors t ht)))
      (fun _ _ _ _ => rfl) rfl))
    (.flatMap (f := fun s xs => { s with graphs := xs })
      (fun g hg => legible (by decide) (Graph.decode_encode (graphs g hg)))
      (fun _ _ _ _ => rfl) rfl))
    (.optional (f := fun s o => { s with docString := o }) (fun _ _ => .string (by decide))
      (fun _ _ _ => rfl) rfl))
    (.optional (f := fun s o => { s with type := o }) (fun _ _ => .int32 (by decide))
      (fun _ _ _ => rfl) rfl))
    (.optional (f := fun s o => { s with refName := o }) (fun _ _ => .string (by decide))
      (fun _ _ _ => rfl) rfl))
    ?_
  refine .unknown (f := fun (s : Attribute) u => { s with unknown := u }) unknown
    (fun _ _ g hg => ?_) ?_
  · dsimp only
    split <;> first | rfl | (rename_i heq; rw [heq] at hg; exact absurd (by decide) hg)
  · rfl
termination_by sizeOf m
decreasing_by
  · exact Attribute.sizeOf_graph ‹_›
  · exact Attribute.sizeOf_graphs ‹_›
end

theorem Model.decode_encode {m : Model} (h : m.Clean) (short : m.encode.length < 2 ^ 64) :
    Model.decode m.encode = .ok m := by
  refine Reads.foldFields ?_ short
  refine .append (.append (.append (.append (.append (.append (.append (.append (.append
    (.optional (f := fun s o => { s with irVersion := o }) (fun _ _ => .int64 (by decide))
      (fun _ _ _ => rfl) rfl)
    (.optional (f := fun s o => { s with producerName := o }) (fun _ _ => .string (by decide))
      (fun _ _ _ => rfl) rfl))
    (.optional (f := fun s o => { s with producerVersion := o }) (fun _ _ => .string (by decide))
      (fun _ _ _ => rfl) rfl))
    (.optional (f := fun s o => { s with domain := o }) (fun _ _ => .string (by decide))
      (fun _ _ _ => rfl) rfl))
    (.optional (f := fun s o => { s with modelVersion := o }) (fun _ _ => .int64 (by decide))
      (fun _ _ _ => rfl) rfl))
    (.optional (f := fun s o => { s with docString := o }) (fun _ _ => .string (by decide))
      (fun _ _ _ => rfl) rfl))
    (.optional (f := fun s o => { s with graph := o })
      (fun g hg => legible (by decide) (Graph.decode_encode (h.graph g hg)))
      (fun _ _ _ => rfl) rfl))
    (.flatMap (f := fun s xs => { s with operatorSets := xs })
      (fun s hs => legible (by decide) (OperatorSet.decode_encode (h.operatorSets s hs)))
      (fun _ _ _ _ => rfl) rfl))
    (.flatMap (f := fun s xs => { s with metadata := xs })
      (fun e he => legible (by decide) (Entry.decode_encode (h.metadata e he)))
      (fun _ _ _ _ => rfl) rfl))
    (.unknown (f := fun (s : Model) u => { s with unknown := u }) h.unknown
      (fun _ _ g hg => ?_) rfl)
  dsimp only
  split <;> first | rfl | (rename_i heq; rw [heq] at hg; exact absurd (by decide) hg)

end Message
end TensorGraph
