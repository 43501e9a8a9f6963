import TensorGraph.Message.Basic

/-!
# Writing messages

Fields are written in the order of their numbers, and the fields that were not understood follow as
they were read.
-/

namespace TensorGraph
namespace Message

open Wire (Bytes)
open Wire.Emit

/-- Each element of a list as a field of its own. -/
def each {α : Type} (emit : α → Bytes) (xs : List α) : Bytes := xs.flatMap emit

def Entry.encode (m : Entry) : Bytes :=
  optional (string 1) m.key ++ optional (string 2) m.value ++ m.unknown

def Tensor.encode (m : Tensor) : Bytes :=
  each (int64 1) m.dims ++
  optional (int32 2) m.dataType ++
  floats 4 (m.floatData.map Binary32.bits) ++
  varints 5 (m.int32Data.map fun v => v.toInt64.toUInt64) ++
  each (bytes 6) m.stringData ++
  varints 7 (m.int64Data.map Int64.toUInt64) ++
  optional (string 8) m.name ++
  optional (bytes 9) m.rawData ++
  doubles 10 (m.doubleData.map Binary64.bits) ++
  varints 11 m.uint64Data ++
  optional (string 12) m.docString ++
  each (fun e => bytes 13 e.encode) m.externalData ++
  optional (int32 14) m.dataLocation ++
  m.unknown

def Dimension.encode (m : Dimension) : Bytes :=
  optional (int64 1) m.value ++ optional (string 2) m.param ++
  optional (string 3) m.denotation ++ m.unknown

def Shape.encode (m : Shape) : Bytes :=
  each (fun d => bytes 1 d.encode) m.dims ++ m.unknown

def TensorType.encode (m : TensorType) : Bytes :=
  optional (int32 1) m.elementType ++
  optional (fun s => bytes 2 (Shape.encode s)) m.shape ++ m.unknown

def ValueType.encode (m : ValueType) : Bytes :=
  optional (fun t => bytes 1 (TensorType.encode t)) m.tensorType ++
  optional (string 6) m.denotation ++ m.unknown

def Value.encode (m : Value) : Bytes :=
  optional (string 1) m.name ++
  optional (fun t => bytes 2 (ValueType.encode t)) m.type ++
  optional (string 3) m.docString ++ m.unknown

def OperatorSet.encode (m : OperatorSet) : Bytes :=
  optional (string 1) m.domain ++ optional (int64 2) m.version ++ m.unknown

mutual
def Graph.encode (m : Graph) : Bytes :=
  (m.nodes.flatMap fun n => bytes 1 n.encode) ++
  optional (string 2) m.name ++
  each (fun t => bytes 5 (Tensor.encode t)) m.initializers ++
  optional (string 10) m.docString ++
  each (fun v => bytes 11 (Value.encode v)) m.inputs ++
  each (fun v => bytes 12 (Value.encode v)) m.outputs ++
  each (fun v => bytes 13 (Value.encode v)) m.valueInfo ++
  m.unknown
termination_by sizeOf m
decreasing_by exact Graph.sizeOf_nodes ‹_›

def Node.encode (m : Node) : Bytes :=
  each (string 1) m.inputs ++
  each (string 2) m.outputs ++
  optional (string 3) m.name ++
  optional (string 4) m.opType ++
  (m.attributes.flatMap fun a => bytes 5 a.encode) ++
  optional (string 6) m.docString ++
  optional (string 7) m.domain ++
  m.unknown
termination_by sizeOf m
decreasing_by exact Node.sizeOf_attributes ‹_›

def Attribute.encode (m : Attribute) : Bytes :=
  optional (string 1) m.name ++
  optional (fun x => fixed32 2 (Binary32.bits x)) m.float ++
  optional (int64 3) m.int ++
  optional (bytes 4) m.string ++
  optional (fun t => bytes 5 (Tensor.encode t)) m.tensor ++
  (match _inside : m.graph with
    | some g => bytes 6 g.encode
    | none => []) ++
  each (fun x => fixed32 7 (Binary32.bits x)) m.floats ++
  each (int64 8) m.ints ++
  each (bytes 9) m.strings ++
  each (fun t => bytes 10 (Tensor.encode t)) m.tensors ++
  (m.graphs.flatMap fun g => bytes 11 g.encode) ++
  optional (string 13) m.docString ++
  optional (int32 20) m.type ++
  optional (string 21) m.refName ++
  m.unknown
termination_by sizeOf m
decreasing_by
  · exact Attribute.sizeOf_graph _inside
  · exact Attribute.sizeOf_graphs ‹_›
end

def Model.encode (m : Model) : Bytes :=
  optional (int64 1) m.irVersion ++
  optional (string 2) m.producerName ++
  optional (string 3) m.producerVersion ++
  optional (string 4) m.domain ++
  optional (int64 5) m.modelVersion ++
  optional (string 6) m.docString ++
  optional (fun g => bytes 7 (Graph.encode g)) m.graph ++
  each (fun s => bytes 8 (OperatorSet.encode s)) m.operatorSets ++
  each (fun e => bytes 14 (Entry.encode e)) m.metadata ++
  m.unknown

end Message
end TensorGraph
