/-!
# Names of rules

The rules by which nodes are removed, merged or replaced, in the order in which they are tried.
-/

namespace TensorGraph

/-- A rule. -/
inductive Rule where
  | eliminateIdentity
  | eliminateNopDropout
  | eliminateNopCast
  | eliminateNopReshape
  | eliminateNopTranspose
  | eliminateNopExpand
  | eliminateNopArithmetic
  | fuseReshapes
  | fuseTransposes
  | fuseSqueezeUnsqueeze
  | fuseNormalizationIntoConv
  | fuseProductAndSum
  | mergeInitializers
  | mergeNodes
  deriving DecidableEq, Repr

namespace Rule

/-- The name by which a rule is switched off and reported. -/
def name : Rule → String
  | eliminateIdentity => "eliminate_identity"
  | eliminateNopDropout => "eliminate_nop_dropout"
  | eliminateNopCast => "eliminate_nop_cast"
  | eliminateNopReshape => "eliminate_nop_reshape"
  | eliminateNopTranspose => "eliminate_nop_transpose"
  | eliminateNopExpand => "eliminate_nop_expand"
  | eliminateNopArithmetic => "eliminate_nop_arithmetic"
  | fuseReshapes => "fuse_consecutive_reshapes"
  | fuseTransposes => "fuse_consecutive_transposes"
  | fuseSqueezeUnsqueeze => "fuse_consecutive_squeeze_unsqueeze"
  | fuseNormalizationIntoConv => "fuse_bn_into_conv"
  | fuseProductAndSum => "fuse_matmul_add_into_gemm"
  | mergeInitializers => "eliminate_deduplicated_initializers"
  | mergeNodes => "eliminate_common_subexpressions"

/-- All rules, the first ones first. -/
def all : List Rule :=
  [eliminateIdentity, eliminateNopDropout, eliminateNopCast, eliminateNopReshape,
    eliminateNopTranspose, eliminateNopExpand, eliminateNopArithmetic, fuseReshapes,
    fuseTransposes, fuseSqueezeUnsqueeze, fuseNormalizationIntoConv, fuseProductAndSum,
    mergeInitializers, mergeNodes]

theorem mem_all (r : Rule) : r ∈ all := by
  cases r <;> decide

end Rule
end TensorGraph
