import TensorGraph.Tensor.Storage
import TensorGraph.Graph.Basic
import TensorGraph.Message.Encode

/-!
# Stored graphs

Graphs are read from messages and written as messages.  What was read and not changed is written as
it was.
-/

namespace TensorGraph

namespace ValueInfo

/-- Whether two declarations say the same. -/
def agrees (a b : ValueInfo) : Bool := a.name = b.name && a.type = b.type && a.shape = b.shape

/-- Read a stored declaration. -/
def ofMessage (m : Message.Value) : ValueInfo :=
  let tensorType := m.type.bind Message.ValueType.tensorType
  { name := m.name.getD ""
    type := (tensorType.bind Message.TensorType.elementType).bind ElementType.ofCode?
    shape := (tensorType.bind Message.TensorType.shape).map fun s => s.dims.map Dim.ofMessage
    source := some m }

/-- A new message for a declaration.  Its documentation is kept. -/
def newMessage (v : ValueInfo) : Message.Value :=
  let tensorType : Message.TensorType :=
    { elementType := v.type.map ElementType.code
      shape := v.shape.map fun dims => { dims := dims.map Dim.toMessage } }
  { name := some v.name
    type := some
      { tensorType := some tensorType
        denotation := (v.source.bind Message.Value.type).bind Message.ValueType.denotation }
    docString := v.source.bind Message.Value.docString }

/-- Store a declaration.  The message that it was read from is kept if it still says the same. -/
def toMessage (v : ValueInfo) : Message.Value :=
  match v.source with
  | some m => if (ofMessage m).agrees v then m else v.newMessage
  | none => v.newMessage

end ValueInfo

namespace Message.Attribute

/-- The type of a stored attribute: the one that is written, else that of the first value in it. -/
def typeCode (m : Message.Attribute) : Int32 :=
  m.type.getD <|
    if m.float.isSome then AttributeCode.float
    else if m.int.isSome then AttributeCode.int
    else if m.string.isSome then AttributeCode.string
    else if m.tensor.isSome then AttributeCode.tensor
    else if m.graph.isSome then AttributeCode.graph
    else if !m.floats.isEmpty then AttributeCode.floats
    else if !m.ints.isEmpty then AttributeCode.ints
    else if !m.strings.isEmpty then AttributeCode.strings
    else if !m.tensors.isEmpty then AttributeCode.tensors
    else if !m.graphs.isEmpty then AttributeCode.graphs
    else AttributeCode.undefined

end Message.Attribute

/-- Read the stored initializers of a graph. -/
def Initializer.ofMessage (m : Message.Tensor) : Except Malformation Initializer := do
  let name := m.name.getD ""
  if name.isEmpty then .error .initializerWithoutName
  else return ⟨name, ← Tensor.ofMessage m⟩

mutual
/-- Read a stored graph. -/
def Graph.ofMessage (m : Message.Graph) : Except Malformation Graph := do
  let nodes ← m.nodes.attach.mapM fun ⟨n, _inside⟩ => Node.ofMessage n
  let initializers ← m.initializers.mapM Initializer.ofMessage
  return {
    name := m.name
    docString := m.docString
    nodes := nodes
    initializers := initializers
    inputs := m.inputs.map ValueInfo.ofMessage
    outputs := m.outputs.map ValueInfo.ofMessage
    valueInfo := m.valueInfo.map ValueInfo.ofMessage
    unknown := m.unknown }
termination_by sizeOf m
decreasing_by exact Message.Graph.sizeOf_nodes _inside

/-- Read a stored node. -/
def Node.ofMessage (m : Message.Node) : Except Malformation Node := do
  let opType := m.opType.getD ""
  if opType.isEmpty then .error (.nodeWithoutOperator (m.name.getD ""))
  else
    let attributes ← m.attributes.attach.mapM fun ⟨a, _inside⟩ => Attribute.ofMessage a
    return {
      name := m.name
      opType := opType
      domain := m.domain
      inputs := m.inputs
      outputs := m.outputs
      attributes := attributes
      docString := m.docString
      unknown := m.unknown }
termination_by sizeOf m
decreasing_by exact Message.Node.sizeOf_attributes _inside

/-- Read a stored attribute. -/
def Attribute.ofMessage (m : Message.Attribute) : Except Malformation Attribute := do
  let malformed (fault : AttributeFault) : Except Malformation AttributeValue :=
    .error (.attributeValue (m.name.getD "") fault)
  let code := m.typeCode
  let value ←
    if code = Message.AttributeCode.float then .ok (.float (m.float.getD .zero))
    else if code = Message.AttributeCode.int then .ok (.int (m.int.getD 0))
    else if code = Message.AttributeCode.string then .ok (.string (m.string.getD []))
    else if code = Message.AttributeCode.tensor then
      match m.tensor with
      | some t => (Tensor.ofMessage t).map AttributeValue.tensor
      | none => malformed .missingTensor
    else if code = Message.AttributeCode.graph then
      match _inside : m.graph with
      | some g => (Graph.ofMessage g).map AttributeValue.graph
      | none => malformed .missingGraph
    else if code = Message.AttributeCode.floats then .ok (.floats m.floats)
    else if code = Message.AttributeCode.ints then .ok (.ints m.ints)
    else if code = Message.AttributeCode.strings then .ok (.strings m.strings)
    else if code = Message.AttributeCode.tensors then
      (m.tensors.mapM Tensor.ofMessage).map AttributeValue.tensors
    else if code = Message.AttributeCode.graphs then
      AttributeValue.graphs <$> m.graphs.attach.mapM fun ⟨g, _inside⟩ => Graph.ofMessage g
    else if code = Message.AttributeCode.undefined then .ok .undefined
    else malformed .unsupportedType
  return {
    name := m.name.getD ""
    value := value
    docString := m.docString
    refName := m.refName
    hasType := m.type.isSome
    unknown := m.unknown }
termination_by sizeOf m
decreasing_by
  · exact Message.Attribute.sizeOf_graph _inside
  · exact Message.Attribute.sizeOf_graphs _inside
end

/-- Store a tensor that an attribute holds, under the name that it was read with. -/
def Tensor.toAttributeMessage (t : Tensor) : Message.Tensor := t.toMessage t.sourceName

/-- The type of an attribute. -/
def AttributeValue.code : AttributeValue → Int32
  | .float _ => Message.AttributeCode.float
  | .int _ => Message.AttributeCode.int
  | .string _ => Message.AttributeCode.string
  | .tensor _ => Message.AttributeCode.tensor
  | .graph _ => Message.AttributeCode.graph
  | .floats _ => Message.AttributeCode.floats
  | .ints _ => Message.AttributeCode.ints
  | .strings _ => Message.AttributeCode.strings
  | .tensors _ => Message.AttributeCode.tensors
  | .graphs _ => Message.AttributeCode.graphs
  | .undefined => Message.AttributeCode.undefined

/-- The message of an attribute without its value. -/
def Attribute.frame (a : Attribute) : Message.Attribute :=
  { name := some a.name
    docString := a.docString
    type := if a.hasType then some a.value.code else none
    refName := a.refName
    unknown := a.unknown }

mutual
/-- Store a graph. -/
def Graph.toMessage (g : Graph) : Message.Graph :=
  { nodes := g.nodes.map fun n => n.toMessage
    name := g.name
    initializers := g.initializers.map fun i => i.value.toMessage (some i.name)
    docString := g.docString
    inputs := g.inputs.map ValueInfo.toMessage
    outputs := g.outputs.map ValueInfo.toMessage
    valueInfo := g.valueInfo.map ValueInfo.toMessage
    unknown := g.unknown }
termination_by sizeOf g
decreasing_by exact Graph.sizeOf_nodes ‹_›

/-- Store a node. -/
def Node.toMessage (n : Node) : Message.Node :=
  { inputs := n.inputs
    outputs := n.outputs
    name := n.name
    opType := some n.opType
    attributes := n.attributes.map fun a => a.toMessage
    docString := n.docString
    domain := n.domain
    unknown := n.unknown }
termination_by sizeOf n
decreasing_by
  rename_i h
  have := List.sizeOf_lt_of_mem h
  cases n
  simp at *
  omega

/-- Store an attribute. -/
def Attribute.toMessage (a : Attribute) : Message.Attribute :=
  match _inside : a.value with
  | .float x => { a.frame with float := some x }
  | .int v => { a.frame with int := some v }
  | .string s => { a.frame with string := some s }
  | .tensor t => { a.frame with tensor := some t.toAttributeMessage }
  | .graph g => { a.frame with graph := some g.toMessage }
  | .floats xs => { a.frame with floats := xs }
  | .ints vs => { a.frame with ints := vs }
  | .strings ss => { a.frame with strings := ss }
  | .tensors ts => { a.frame with tensors := ts.map Tensor.toAttributeMessage }
  | .graphs gs => { a.frame with graphs := gs.map fun g => g.toMessage }
  | .undefined => a.frame
termination_by sizeOf a
decreasing_by
  · cases a
    simp only at _inside
    subst _inside
    simp
    omega
  · rename_i h
    have := List.sizeOf_lt_of_mem h
    cases a
    simp only at _inside
    subst _inside
    simp
    omega
end

namespace Node

/-- The attributes of a node in their stored form, each with its name. -/
def storedAttributes (n : Node) : List (String × Wire.Bytes) :=
  n.attributes.map fun a => (a.name, a.toMessage.encode)

/-- Whether two nodes apply the same operator with the same attributes, in any order, to the same
inputs.  The names of the outputs do not matter. -/
def sameComputation (a b : Node) : Bool :=
  a.opType = b.opType && a.isDefaultDomain = b.isDefaultDomain &&
    (a.isDefaultDomain || a.domain = b.domain) && a.inputs = b.inputs &&
    a.outputs.length = b.outputs.length && a.storedAttributes.isPerm b.storedAttributes

end Node
end TensorGraph
