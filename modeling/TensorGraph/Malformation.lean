/-!
# Malformed graphs

The ways in which a graph can be malformed, and the words that describe each of them.
-/

namespace TensorGraph

/-- What is wrong with a stored tensor. -/
inductive TensorFault where
  | negativeDimension
  | unknownType
  | rawData
  | elementCount
  deriving DecidableEq, Repr

/-- What is wrong with a stored attribute. -/
inductive AttributeFault where
  | missingTensor
  | missingGraph
  | unsupportedType
  deriving DecidableEq, Repr

/-- What is wrong with a control-flow node. -/
inductive ControlFlowFault where
  | missingBranch
  | branchOutputs
  | branchInputs
  | missingBody
  | bodyInputs
  | bodyOutputs
  deriving DecidableEq, Repr

/-- What is wrong with a graph. -/
inductive Malformation where
  | tensor (name : String) (fault : TensorFault)
  | attributeValue (name : String) (fault : AttributeFault)
  | nodeWithoutOperator (name : String)
  | initializerWithoutName
  | definedTwice (value : String)
  | undefinedInput (node value : String)
  | undefinedOutput (value : String)
  | controlFlow (opType node : String) (fault : ControlFlowFault)
  | usedValueRemoved (node value : String)
  | noGraph
  | interfaceChanged
  deriving DecidableEq, Repr

namespace TensorFault

def message : TensorFault → String
  | negativeDimension => "negative dimension"
  | unknownType => "unknown data type"
  | rawData => "invalid raw data"
  | elementCount => "element count does not match shape"

end TensorFault

namespace AttributeFault

def message : AttributeFault → String
  | missingTensor => "missing tensor value"
  | missingGraph => "missing graph value"
  | unsupportedType => "unsupported attribute type"

end AttributeFault

namespace ControlFlowFault

def message : ControlFlowFault → String
  | missingBranch => "missing branch subgraph"
  | branchOutputs => "branch output count does not match node output count"
  | branchInputs => "branch subgraphs must not have inputs"
  | missingBody => "missing body subgraph"
  | bodyInputs => "body input count does not match loop-carried values"
  | bodyOutputs => "body output count does not match node outputs"

end ControlFlowFault

/-- A text between double quotes. -/
def quoted (s : String) : String := "\"" ++ s ++ "\""

namespace Malformation

/-- The words that describe a malformation. -/
def message : Malformation → String
  | tensor name fault => "tensor " ++ quoted name ++ ": " ++ fault.message
  | attributeValue name fault => "attribute " ++ quoted name ++ ": " ++ fault.message
  | nodeWithoutOperator name => "node " ++ quoted name ++ " has no operator type"
  | initializerWithoutName => "initializer has no name"
  | definedTwice value => "value " ++ quoted value ++ " is defined more than once"
  | undefinedInput node value =>
    "node " ++ quoted node ++ " reads undefined value " ++ quoted value
  | undefinedOutput value => "graph output " ++ quoted value ++ " is not defined"
  | controlFlow opType node fault =>
    opType ++ " node " ++ quoted node ++ ": " ++ fault.message
  | usedValueRemoved node value =>
    "replacing node " ++ quoted node ++ " would remove value " ++ quoted value ++
      " which is still used"
  | noGraph => "model has no graph"
  | interfaceChanged => "subgraph inputs or outputs changed"

end Malformation
end TensorGraph
