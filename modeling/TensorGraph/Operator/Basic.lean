import TensorGraph.Operator.Kernel

/-!
# Operators

An operator is a kernel or one of the two control-flow operators, which hold graphs.
-/

namespace TensorGraph

/-- An operator with its attributes. -/
inductive Operator where
  | kernel (k : Kernel)
  /-- Run one of two graphs. -/
  | branch (onTrue onFalse : Graph)
  /-- Run a graph several times. -/
  | loop (body : Graph)

namespace Operator

/-- The type of the operator in nodes. -/
def name : Operator → String
  | kernel k => k.name
  | branch _ _ => "If"
  | loop _ => "Loop"

/-- Whether the outputs depend on the inputs, and on what nested graphs do, alone. -/
def isDeterministic : Operator → Bool
  | kernel k => k.isDeterministic
  | branch _ _ | loop _ => true

/-- How many of the first outputs are always produced, if the others may be left out. -/
def requiredOutputs? : Operator → Option Nat
  | kernel k => k.requiredOutputs?
  | branch _ _ | loop _ => none

/-- The kernel, unless the operator holds graphs. -/
def kernel? : Operator → Option Kernel
  | kernel k => some k
  | branch _ _ | loop _ => none

end Operator
end TensorGraph
