import TensorGraph.Operator.Convolution
import TensorGraph.Operator.Elementwise
import TensorGraph.Operator.Generation
import TensorGraph.Operator.Joining
import TensorGraph.Operator.MatrixProduct
import TensorGraph.Operator.Pooling
import TensorGraph.Operator.Sampling
import TensorGraph.Operator.Selection

/-!
# Kernels

All operators that compute their outputs from tensors alone, with their attributes.  Each of them
can be run on tensors (`Kernel.run`) and gives facts about its outputs from facts about its inputs
(`Kernel.infer`).
-/

namespace TensorGraph

/-- An operator that computes tensors from tensors. -/
inductive Kernel where
  | unary (f : UnaryFunction)
  | clip (low high : Option Binary32)
  | binary (f : BinaryFunction)
  | variadic (f : VariadicFunction)
  | select
  | reduce (r : Reduction)
  | argSelect (a : ArgSelect)
  | softmax (s : Softmax)
  | shape (start stop : Option Int)
  | size
  | reshape (allowZero : Bool)
  | flatten (axis : Int)
  | squeeze (axes : Option (List Int))
  | unsqueeze (axes : Option (List Int))
  | transpose (perm : Option (List Int))
  | expand
  | nonZero
  | concat (axis : Int)
  | tile
  | constant (value : Tensor)
  | constantOfShape (value : Tensor)
  | range
  | identity
  | dropout (training : Bool)
  | cast (type : ElementType)
  | castLike
  | gather (axis : Int)
  | slice (s : Slice)
  | split (s : Split)
  | matMul
  | gemm (g : Gemm)
  | conv (c : Conv)
  | batchNormalization (b : BatchNormalization)
  | maxPool (p : MaxPool)
  | averagePool (p : AveragePool)
  | globalAveragePool
  | random (r : RandomTensor)
  | randomLike (r : RandomLike)
  | bernoulli (b : Bernoulli)
  | multinomial (m : Multinomial)
  deriving DecidableEq, Repr

namespace Kernel

/-- The type of the operator in nodes. -/
def name : Kernel → String
  | unary f => f.name
  | clip _ _ => "Clip"
  | binary f => f.name
  | variadic f => f.name
  | select => "Where"
  | reduce r => r.name
  | argSelect a => a.name
  | softmax _ => "Softmax"
  | shape _ _ => "Shape"
  | size => "Size"
  | reshape _ => "Reshape"
  | flatten _ => "Flatten"
  | squeeze _ => "Squeeze"
  | unsqueeze _ => "Unsqueeze"
  | transpose _ => "Transpose"
  | expand => "Expand"
  | nonZero => "NonZero"
  | concat _ => "Concat"
  | tile => "Tile"
  | constant _ => "Constant"
  | constantOfShape _ => "ConstantOfShape"
  | range => "Range"
  | identity => "Identity"
  | dropout _ => "Dropout"
  | cast _ => "Cast"
  | castLike => "CastLike"
  | gather _ => "Gather"
  | slice _ => "Slice"
  | split _ => "Split"
  | matMul => "MatMul"
  | gemm _ => "Gemm"
  | conv _ => "Conv"
  | batchNormalization _ => "BatchNormalization"
  | maxPool _ => "MaxPool"
  | averagePool _ => "AveragePool"
  | globalAveragePool => "GlobalAveragePool"
  | random ⟨.uniform _ _, _, _, _⟩ => "RandomUniform"
  | random ⟨.normal _ _, _, _, _⟩ => "RandomNormal"
  | randomLike ⟨.uniform _ _, _, _⟩ => "RandomUniformLike"
  | randomLike ⟨.normal _ _, _, _⟩ => "RandomNormalLike"
  | bernoulli _ => "Bernoulli"
  | multinomial _ => "Multinomial"

/-- Whether the outputs depend on the inputs alone. -/
def isDeterministic : Kernel → Bool
  | dropout training => !training
  | random _ | randomLike _ | bernoulli _ | multinomial _ => false
  | _ => true

/-- How many of the first outputs are always produced, if the others may be left out. -/
def requiredOutputs? : Kernel → Option Nat
  | dropout _ | batchNormalization _ | maxPool _ => some 1
  | _ => none

/-- Run an operator on its inputs.  Some operators depend on the number of outputs that are asked
for.  Random operators without a seed draw from the generator that is given by chance. -/
def run (k : Kernel) (chance : Generator) (inputs : Inputs) (outputs : Option Nat) :
    OpResult (List Tensor) :=
  match k with
  | unary f => do return [← f.run (← inputs.require 0)]
  | clip low high => do return [← runClip low high inputs]
  | binary f => do
    let a ← inputs.require 0
    return [← f.run a (← inputs.require 1)]
  | variadic f => do return [← f.run inputs]
  | select => do return [← runWhere inputs]
  | reduce r => do return [← r.run inputs]
  | argSelect a => do return [← a.run inputs]
  | softmax s => do return [← s.run inputs]
  | shape start stop => do return [← runShape start stop inputs]
  | size => do return [← runSize inputs]
  | reshape allowZero => do return [← runReshape allowZero inputs]
  | flatten axis => do return [← runFlatten axis inputs]
  | squeeze axes => do return [← runSqueeze axes inputs]
  | unsqueeze axes => do return [← runUnsqueeze axes inputs]
  | transpose perm => do return [← runTranspose perm inputs]
  | expand => do return [← runExpand inputs]
  | nonZero => do return [← runNonZero inputs]
  | concat axis => do return [← runConcat axis inputs]
  | tile => do return [← runTile inputs]
  | constant value => .ok [value]
  | constantOfShape value => do return [← runConstantOfShape value inputs]
  | range => do return [← runRange inputs]
  | identity => do return [← inputs.require 0]
  | dropout training => runDropout training inputs outputs
  | cast type => do return [← runCast type inputs]
  | castLike => do return [← runCastLike inputs]
  | gather axis => do return [← runGather axis inputs]
  | slice s => do return [← s.run inputs]
  | split s => s.run inputs outputs
  | matMul => do return [← runMatMul inputs]
  | gemm g => do return [← g.run inputs]
  | conv c => do return [← c.run inputs]
  | batchNormalization b => do return [← b.run inputs outputs]
  | maxPool p => p.run inputs outputs
  | averagePool p => do return [← p.run inputs]
  | globalAveragePool => do return [← runGlobalAveragePool inputs]
  | random r => do return [← r.run chance]
  | randomLike r => do return [← r.run chance inputs]
  | bernoulli b => do return [← b.run chance inputs]
  | multinomial m => do return [← m.run chance inputs]

/-- Facts about the outputs of an operator, from facts about its inputs. -/
def infer (k : Kernel) (inputs : InputFacts) : FactsResult (List Facts) :=
  match k with
  | unary _ | clip _ _ | softmax _ | batchNormalization _ => unaryFacts inputs
  | binary f => f.infer inputs
  | variadic f => f.infer inputs
  | select => inferWhere inputs
  | reduce r => r.infer inputs
  | argSelect a => a.infer inputs
  | shape start stop => inferShape start stop inputs
  | size => inferSize inputs
  | reshape allowZero => inferReshape allowZero inputs
  | flatten axis => inferFlatten axis inputs
  | squeeze axes => inferSqueeze axes inputs
  | unsqueeze axes => inferUnsqueeze axes inputs
  | transpose perm => inferTranspose perm inputs
  | expand => inferExpand inputs
  | nonZero => inferNonZero inputs
  | concat axis => inferConcat axis inputs
  | tile => inferTile inputs
  | constant value => .ok [.ofTensor value]
  | constantOfShape value => inferConstantOfShape value inputs
  | range => inferRange inputs
  | identity => do return [← inputs.require 0]
  | dropout _ => inferDropout inputs
  | cast type => inferCast type inputs
  | castLike => inferCastLike inputs
  | gather axis => inferGather axis inputs
  | slice s => s.infer inputs
  | split s => s.infer inputs
  | matMul => inferMatMul inputs
  | gemm g => g.infer inputs
  | conv c => c.infer inputs
  | maxPool p => p.infer inputs
  | averagePool p => p.infer inputs
  | globalAveragePool => inferGlobalAveragePool inputs
  | random r => r.infer
  | randomLike r => likeFacts r.type inputs
  | bernoulli b => likeFacts b.type inputs
  | multinomial m => m.infer inputs

end Kernel
end TensorGraph
