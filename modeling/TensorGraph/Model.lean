import TensorGraph.Graph.Order
import TensorGraph.Graph.Storage
import TensorGraph.Graph.Validity
import TensorGraph.Message.Decode

/-!
# Models

A model is a graph with data about the whole file, which is written back unchanged.  Only models
with a valid graph without cycles, and with a supported version of the default operator set, are
loaded.
-/

namespace TensorGraph

/-- A model. -/
structure Model where
  graph : Graph
  /-- The stored model without its graph. -/
  frame : Message.Model

/-- Why a model cannot be loaded. -/
inductive LoadError where
  | decode (e : Wire.DecodeError)
  | malformed (m : Malformation)
  | cyclic (c : Cycle)
  | unsupportedVersion (domain : String) (version : Int64)
  deriving DecidableEq, Repr

namespace Model

/-- The newest supported version of the default operator set. -/
def newestVersion : Int64 := 21

/-- The first format version in which inputs and initializers are separate. -/
def separateInitializersVersion : Int64 := 4

end Model

namespace LoadError

/-- The words that describe why a model cannot be loaded. -/
def message : LoadError → String
  | decode e => "failed to decode model: " ++ e.message
  | malformed m => "malformed graph: " ++ m.message
  | cyclic c => c.message
  | unsupportedVersion domain version =>
    "unsupported opset version " ++ toString version.toInt ++ " for domain " ++ quoted domain ++
      " (maximum supported is " ++ toString Model.newestVersion.toInt ++ ")"

end LoadError

namespace Message.OperatorSet

/-- Whether this is the default operator set. -/
def isDefault (m : OperatorSet) : Bool :=
  match m.domain with
  | none => true
  | some d => d == "" || d == "ai.onnx"

end Message.OperatorSet

namespace Model

/-- The first import of the default operator set that is too new. -/
def tooNew? (sets : List Message.OperatorSet) : Option Message.OperatorSet :=
  sets.find? fun s => s.isDefault && newestVersion < s.version.getD 0

/-- Load a stored model. -/
def load (bytes : Wire.Bytes) : Except LoadError Model := do
  let m ← (Message.Model.decode bytes).mapError .decode
  match tooNew? m.operatorSets with
  | some s => .error (.unsupportedVersion (s.domain.getD "") (s.version.getD 0))
  | none =>
    match m.graph with
    | none => .error (.malformed .noGraph)
    | some stored =>
      let graph ← (Graph.ofMessage stored).mapError .malformed
      (graph.validate []).mapError .malformed
      let _ ← graph.topologicalOrder.mapError .cyclic
      return { graph := graph, frame := { m with graph := none } }

/-- A new model for a graph. -/
def ofGraph (graph : Graph) (version : Int64) : Model :=
  { graph := graph
    frame :=
      { irVersion := some 8
        producerName := some "onnxsim"
        operatorSets := [{ domain := some "", version := some version }] } }

def irVersion (m : Model) : Option Int64 := m.frame.irVersion

def setIrVersion (m : Model) (version : Option Int64) : Model :=
  { m with frame := { m.frame with irVersion := version } }

/-- The version of the default operator set that the model is written for. -/
def operatorVersion (m : Model) : Option Int64 :=
  (m.frame.operatorSets.find? Message.OperatorSet.isDefault).bind Message.OperatorSet.version

/-- Whether inputs with initializers have a default value only.  From version 4 of the format on
such initializers are constants, and so they are in a model without version. -/
def initializersOverridable (m : Model) : Bool :=
  match m.irVersion with
  | some v => v < separateInitializersVersion
  | none => false

def toMessage (m : Model) : Message.Model := { m.frame with graph := some m.graph.toMessage }

/-- Store a model. -/
def serialize (m : Model) : Wire.Bytes := m.toMessage.encode

end Model
end TensorGraph
