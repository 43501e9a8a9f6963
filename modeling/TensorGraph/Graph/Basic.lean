import TensorGraph.Dimension.Basic
import TensorGraph.Tensor.Basic

/-!
# Graphs

A graph is a list of nodes with the named values that they read: graph inputs, initializers (named
constants) and outputs of other nodes.  An empty name stands for an omitted input or output.  An
attribute of a control-flow node holds a graph, which may read values of the graphs around it.

Nested graphs are smaller than the nodes that hold them (`Node.sizeOf_subgraphs`), and functions on
graphs are defined by recursion on that size.
-/

namespace TensorGraph

open Wire (Bytes)

/-- The declared type and shape of a value. -/
structure ValueInfo where
  name : String
  type : Option ElementType := none
  /-- The dimensions, if the rank is declared. -/
  shape : Option (List Dim) := none
  /-- The message that the declaration was read from. -/
  source : Option Message.Value := none
  deriving DecidableEq, Repr, Inhabited

/-- A named constant. -/
structure Initializer where
  name : String
  value : Tensor
  deriving DecidableEq, Repr

mutual
/-- The value of an attribute. -/
inductive AttributeValue where
  | float (x : Binary32)
  | int (v : Int64)
  | string (bytes : Bytes)
  | tensor (t : Tensor)
  | graph (g : Graph)
  | floats (xs : List Binary32)
  | ints (vs : List Int64)
  | strings (bytes : List Bytes)
  | tensors (ts : List Tensor)
  | graphs (gs : List Graph)
  | undefined

/-- A named attribute of a node. -/
structure Attribute where
  name : String
  value : AttributeValue
  docString : Option String := none
  refName : Option String := none
  /-- Whether the type of the value is stored with it. -/
  hasType : Bool := true
  unknown : Bytes := []

/-- An application of an operator. -/
structure Node where
  name : Option String := none
  opType : String
  domain : Option String := none
  inputs : List String := []
  outputs : List String := []
  attributes : List Attribute := []
  docString : Option String := none
  unknown : Bytes := []

/-- A graph. -/
structure Graph where
  name : Option String := none
  docString : Option String := none
  nodes : List Node := []
  initializers : List Initializer := []
  inputs : List ValueInfo := []
  outputs : List ValueInfo := []
  valueInfo : List ValueInfo := []
  unknown : Bytes := []
end

instance : Inhabited Graph := ⟨{}⟩

namespace AttributeValue

/-- The graphs in an attribute. -/
def graphList : AttributeValue → List Graph
  | graph g => [g]
  | graphs gs => gs
  | _ => []

theorem sizeOf_graphList {v : AttributeValue} {g : Graph} (h : g ∈ v.graphList) :
    sizeOf g < sizeOf v := by
  cases v <;> simp only [graphList, List.not_mem_nil, List.mem_singleton] at h
  case graph g' => subst h; simp
  case graphs gs =>
    have := List.sizeOf_lt_of_mem h
    simp
    omega

end AttributeValue

namespace Node

/-- The name by which messages call a node: its own name, else its first output, else its operator.
-/
def displayName (n : Node) : String :=
  match n.name with
  | some s => if s.isEmpty then n.outputs.headD n.opType else s
  | none => n.outputs.headD n.opType

/-- Whether the operator belongs to the default operator set. -/
def isDefaultDomain (n : Node) : Bool :=
  match n.domain with
  | none => true
  | some d => d == "" || d == "ai.onnx"

/-- The value of the attribute with a name. -/
def attribute? (n : Node) (name : String) : Option AttributeValue :=
  (n.attributes.find? fun a => a.name == name).map Attribute.value

/-- The graph in the attribute with a name, if it holds a single graph. -/
def graph? (n : Node) (name : String) : Option Graph :=
  match n.attribute? name with
  | some (.graph g) => some g
  | _ => none

/-- Change the first attribute with a name, or add it at the end. -/
def setAttributeIn (name : String) (value : AttributeValue) : List Attribute → List Attribute
  | [] => [{ name := name, value := value }]
  | a :: rest =>
    if a.name = name then { a with value := value } :: rest
    else a :: setAttributeIn name value rest

/-- Set the attribute with a name. -/
def setAttribute (n : Node) (name : String) (value : AttributeValue) : Node :=
  { n with attributes := setAttributeIn name value n.attributes }

/-- The inputs that are not omitted. -/
def presentInputs (n : Node) : List String := n.inputs.filter (· ≠ "")

/-- The outputs that are not omitted. -/
def presentOutputs (n : Node) : List String := n.outputs.filter (· ≠ "")

/-- The input at a position, unless it is omitted. -/
def input? (n : Node) (i : Nat) : Option String := n.inputs[i]?.filter (· ≠ "")

/-- The nested graphs, each with the name of its attribute. -/
def subgraphs (n : Node) : List (String × Graph) :=
  n.attributes.flatMap fun a => a.value.graphList.map fun g => (a.name, g)

def hasSubgraphs (n : Node) : Bool := !n.subgraphs.isEmpty

theorem sizeOf_attributes {n : Node} {a : Attribute} (h : a ∈ n.attributes) :
    sizeOf a.value < sizeOf n := by
  have := List.sizeOf_lt_of_mem h
  cases n
  cases a
  simp at *
  omega

theorem sizeOf_subgraphs {n : Node} {p : String × Graph} (h : p ∈ n.subgraphs) :
    sizeOf p.2 < sizeOf n := by
  simp only [subgraphs, List.mem_flatMap, List.mem_map] at h
  obtain ⟨a, ha, g, hg, rfl⟩ := h
  exact Nat.lt_trans (AttributeValue.sizeOf_graphList hg) (sizeOf_attributes ha)

theorem sizeOf_graph? {n : Node} {name : String} {g : Graph} (h : n.graph? name = some g) :
    sizeOf g < sizeOf n := by
  unfold graph? attribute? at h
  cases hf : n.attributes.find? fun a => a.name == name with
  | none => simp [hf] at h
  | some a =>
    have ha := List.mem_of_find?_eq_some hf
    simp only [hf, Option.map_some] at h
    refine Nat.lt_trans (AttributeValue.sizeOf_graphList ?_) (sizeOf_attributes ha)
    cases hv : a.value <;> simp_all [AttributeValue.graphList]

/-- Change each nested graph of a node. -/
def mapSubgraphs (n : Node) (f : (g : Graph) → sizeOf g < sizeOf n → Graph) : Node :=
  { n with
    attributes := n.attributes.attach.map fun ⟨a, ha⟩ =>
      { a with
        value :=
          match h : a.value with
          | .graph g =>
            .graph (f g (Nat.lt_trans
              (AttributeValue.sizeOf_graphList (by simp [h, AttributeValue.graphList]))
              (sizeOf_attributes ha)))
          | .graphs gs =>
            .graphs (gs.attach.map fun ⟨g, hg⟩ =>
              f g (Nat.lt_trans
                (AttributeValue.sizeOf_graphList (by simp [h, AttributeValue.graphList, hg]))
                (sizeOf_attributes ha)))
          | v => v } }

end Node

namespace Graph

theorem sizeOf_nodes {g : Graph} {n : Node} (h : n ∈ g.nodes) : sizeOf n < sizeOf g := by
  have := List.sizeOf_lt_of_mem h
  cases g
  simp at *
  omega

/-- A nested graph of a node is smaller than the graph with the node. -/
theorem sizeOf_nested {g : Graph} {n : Node} {p : String × Graph} (hn : n ∈ g.nodes)
    (hp : p ∈ n.subgraphs) : sizeOf p.2 < sizeOf g :=
  Nat.lt_trans (Node.sizeOf_subgraphs hp) (sizeOf_nodes hn)

/-- The constant with a name. -/
def initializer? (g : Graph) (name : String) : Option Tensor :=
  (g.initializers.find? fun i => i.name == name).map Initializer.value

/-- Change the first initializer with a name, or add it at the end. -/
def setInitializerIn (name : String) (value : Tensor) : List Initializer → List Initializer
  | [] => [⟨name, value⟩]
  | i :: rest =>
    if i.name = name then { i with value := value } :: rest
    else i :: setInitializerIn name value rest

/-- Set the constant with a name. -/
def setInitializer (g : Graph) (name : String) (value : Tensor) : Graph :=
  { g with initializers := setInitializerIn name value g.initializers }

/-- Set several constants. -/
def setInitializers (g : Graph) (values : List Initializer) : Graph :=
  values.foldl (fun g i => g.setInitializer i.name i.value) g

/-- Add a node at the end. -/
def addNode (g : Graph) (n : Node) : Graph := { g with nodes := g.nodes ++ [n] }

def isInput (g : Graph) (name : String) : Bool := g.inputs.any fun i => i.name == name

def isOutput (g : Graph) (name : String) : Bool := g.outputs.any fun o => o.name == name

/-- The inputs that have no initializer. -/
def runtimeInputs (g : Graph) : List ValueInfo :=
  g.inputs.filter fun i => (g.initializer? i.name).isNone

/-- The values that a graph defines itself: inputs, initializers and outputs of nodes. -/
def definedNames (g : Graph) : List String :=
  g.inputs.map ValueInfo.name ++ g.initializers.map Initializer.name ++
    g.nodes.flatMap Node.presentOutputs

/-- The first node that produces a value. -/
def producer? (g : Graph) (name : String) : Option Nat :=
  g.nodes.findIdx? fun n => n.presentOutputs.contains name

/-- Each produced value with its node, in the order of the nodes. -/
def productions (g : Graph) : List (String × Nat) :=
  g.nodes.zipIdx.flatMap fun (n, i) => n.presentOutputs.map fun o => (o, i)

/-- The last node that produces a value. -/
def lastProducer? (g : Graph) (name : String) : Option Nat :=
  (g.productions.reverse.find? fun p => p.1 == name).map Prod.snd

/-- The operators of a graph and its nested graphs, once per node. -/
def opTypes (g : Graph) : List String :=
  g.nodes.flatMap fun n => n.opType :: n.subgraphs.attach.flatMap fun ⟨p, _inside⟩ => p.2.opTypes
termination_by sizeOf g
decreasing_by exact sizeOf_nested ‹_› _inside

/-- The number of nodes of a graph and its nested graphs. -/
def totalNodeCount (g : Graph) : Nat := g.opTypes.length

/-- How deep graphs are nested in a graph. -/
def depth (g : Graph) : Nat :=
  (g.nodes.map fun n =>
    (n.subgraphs.attach.map fun ⟨p, _inside⟩ => p.2.depth + 1).foldl max 0).foldl max 0
termination_by sizeOf g
decreasing_by exact sizeOf_nested ‹_› _inside

end Graph
end TensorGraph
