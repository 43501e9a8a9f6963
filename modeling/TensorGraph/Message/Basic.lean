import TensorGraph.Wire.Emit
import TensorGraph.Number.Binary32

/-!
# Messages of the model format

The twelve kinds of message of which a model file consists.  Each holds the fields that matter to a
simplifier; all other fields of a message are kept in `unknown` as they were written.  Attributes,
nodes and graphs refer to each other, because an attribute of a control-flow node holds a graph.
-/

namespace TensorGraph
namespace Message

open Wire (Bytes)

/-- A key with its value. -/
structure Entry where
  key : Option String := none
  value : Option String := none
  unknown : Bytes := []
  deriving DecidableEq, Repr, Inhabited

/-! Codes of the element types. -/
namespace TypeCode

def undefined : Int32 := 0
def float : Int32 := 1
def uint8 : Int32 := 2
def int8 : Int32 := 3
def uint16 : Int32 := 4
def int16 : Int32 := 5
def int32 : Int32 := 6
def int64 : Int32 := 7
def string : Int32 := 8
def bool : Int32 := 9
def float16 : Int32 := 10
def double : Int32 := 11
def uint32 : Int32 := 12
def uint64 : Int32 := 13
def bfloat16 : Int32 := 16

end TypeCode

/-- The location of tensor data that is kept outside the file. -/
def externalLocation : Int32 := 1

/-- A tensor.  Its elements are raw bytes, or a list in one of the typed fields. -/
structure Tensor where
  dims : List Int64 := []
  dataType : Option Int32 := none
  floatData : List Binary32 := []
  int32Data : List Int32 := []
  stringData : List Bytes := []
  int64Data : List Int64 := []
  name : Option String := none
  rawData : Option Bytes := none
  doubleData : List Binary64 := []
  uint64Data : List UInt64 := []
  docString : Option String := none
  externalData : List Entry := []
  dataLocation : Option Int32 := none
  unknown : Bytes := []
  deriving DecidableEq, Repr, Inhabited

/-- One dimension of a declared shape. -/
structure Dimension where
  value : Option Int64 := none
  param : Option String := none
  denotation : Option String := none
  unknown : Bytes := []
  deriving DecidableEq, Repr, Inhabited

/-- A declared shape. -/
structure Shape where
  dims : List Dimension := []
  unknown : Bytes := []
  deriving DecidableEq, Repr, Inhabited

/-- The type of a tensor. -/
structure TensorType where
  elementType : Option Int32 := none
  shape : Option Shape := none
  unknown : Bytes := []
  deriving DecidableEq, Repr, Inhabited

/-- The type of a value. -/
structure ValueType where
  tensorType : Option TensorType := none
  denotation : Option String := none
  unknown : Bytes := []
  deriving DecidableEq, Repr, Inhabited

/-- The name of a value with its type. -/
structure Value where
  name : Option String := none
  type : Option ValueType := none
  docString : Option String := none
  unknown : Bytes := []
  deriving DecidableEq, Repr, Inhabited

/-- A set of operators and its version. -/
structure OperatorSet where
  domain : Option String := none
  version : Option Int64 := none
  unknown : Bytes := []
  deriving DecidableEq, Repr, Inhabited

/-! Codes of the attribute types. -/
namespace AttributeCode

def undefined : Int32 := 0
def float : Int32 := 1
def int : Int32 := 2
def string : Int32 := 3
def tensor : Int32 := 4
def graph : Int32 := 5
def floats : Int32 := 6
def ints : Int32 := 7
def strings : Int32 := 8
def tensors : Int32 := 9
def graphs : Int32 := 10

end AttributeCode

mutual
/-- An attribute of a node. -/
structure Attribute where
  name : Option String := none
  float : Option Binary32 := none
  int : Option Int64 := none
  string : Option Bytes := none
  tensor : Option Tensor := none
  graph : Option Graph := none
  floats : List Binary32 := []
  ints : List Int64 := []
  strings : List Bytes := []
  tensors : List Tensor := []
  graphs : List Graph := []
  docString : Option String := none
  type : Option Int32 := none
  refName : Option String := none
  unknown : Bytes := []

/-- A node of a graph. -/
structure Node where
  inputs : List String := []
  outputs : List String := []
  name : Option String := none
  opType : Option String := none
  attributes : List Attribute := []
  docString : Option String := none
  domain : Option String := none
  unknown : Bytes := []

/-- A graph. -/
structure Graph where
  nodes : List Node := []
  name : Option String := none
  initializers : List Tensor := []
  docString : Option String := none
  inputs : List Value := []
  outputs : List Value := []
  valueInfo : List Value := []
  unknown : Bytes := []
end

/-- A model. -/
structure Model where
  irVersion : Option Int64 := none
  producerName : Option String := none
  producerVersion : Option String := none
  domain : Option String := none
  modelVersion : Option Int64 := none
  docString : Option String := none
  graph : Option Graph := none
  operatorSets : List OperatorSet := []
  metadata : List Entry := []
  unknown : Bytes := []

theorem Attribute.sizeOf_graph {a : Attribute} {g : Graph} (h : a.graph = some g) :
    sizeOf g < sizeOf a := by
  cases a
  simp only at h
  subst h
  simp
  omega

theorem Attribute.sizeOf_graphs {a : Attribute} {g : Graph} (h : g ∈ a.graphs) :
    sizeOf g < sizeOf a := by
  have := List.sizeOf_lt_of_mem h
  cases a
  simp at *
  omega

theorem Node.sizeOf_attributes {n : Node} {a : Attribute} (h : a ∈ n.attributes) :
    sizeOf a < sizeOf n := by
  have := List.sizeOf_lt_of_mem h
  cases n
  simp at *
  omega

theorem Graph.sizeOf_nodes {g : Graph} {n : Node} (h : n ∈ g.nodes) : sizeOf n < sizeOf g := by
  have := List.sizeOf_lt_of_mem h
  cases g
  simp at *
  omega

end Message
end TensorGraph
