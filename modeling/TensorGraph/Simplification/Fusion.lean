import TensorGraph.FreshName
import TensorGraph.Operator.Convolution
import TensorGraph.Simplification.Elimination

/-!
# Fusing nodes

Two nodes in a row are replaced by one that does the same: two changes of shape, two
transpositions, a convolution and the normalization of its result, and a product of matrices and a
sum.  Inserting and removing the same dimensions does nothing at all.
-/

namespace TensorGraph

namespace View

/-- A change of shape of a changed shape. -/
def reshapeTwice : Pattern :=
  .binary "Reshape" (.binary "Reshape" (.any "x") (.any "s1")) (.anyConstant "shape")

/-- Replace the first input of a node. -/
def withFirstInput (n : Node) (name : String) : Node := { n with inputs := n.inputs.set 0 name }

/-- Change the shape once instead of twice.  A zero in the shape stands for a dimension of the
input, so there must be none, unless it means an empty dimension. -/
def fuseReshapes (v : View) (n : Node) : Option Change := do
  if n.isOperator "Reshape" then
    let found ← reshapeTwice.matches? v.computations (← n.outputs.head?)
    let x ← found.value? "x"
    let shape ← (← v.constant? (← found.value? "shape")).int64s?
    let allowZero :=
      match n.attribute? "allowzero" with
      | some (.int flag) => flag = 1
      | _ => false
    if shape.contains 0 && !allowZero then none else return .replace [withFirstInput n x] []
  else none

/-- Transpose once instead of twice. -/
def fuseTransposes (v : View) (n : Node) : Option Change := do
  let (_, inner) ← v.producer? (← n.input? 0)
  if n.isOperator "Transpose" && inner.isOperator "Transpose" then
    let outerPerm ← v.permutation? n
    let innerPerm ← v.permutation? inner
    if outerPerm.length = innerPerm.length then
      let perm ← outerPerm.mapM fun p => innerPerm[p]?
      let fused := withFirstInput n (← inner.input? 0)
      return .replace [fused.setAttribute "perm" (.ints (perm.map fun p => Int64.ofNat p))] []
    else none
  else none

/-- The dimensions that axes name, in ascending order. -/
def normalizeAxes? (rank : Nat) (axes : List Int) : Option (List Nat) :=
  (axes.mapM (resolveAxis? rank)).map fun resolved => resolved.mergeSort (· ≤ ·)

/-- Remove a pair of nodes that insert and remove the same dimensions.  The axes of both count the
dimensions of the larger tensor. -/
def fuseSqueezeUnsqueeze (v : View) (n : Node) : Option Change := do
  let (_, inner) ← v.producer? (← n.input? 0)
  let x ← inner.input? 0
  let removesLast := n.isOperator "Squeeze" && inner.isOperator "Unsqueeze"
  let insertsLast := n.isOperator "Unsqueeze" && inner.isOperator "Squeeze"
  if removesLast || insertsLast then
    let outerAxes ← v.integers? n "axes" 1
    let innerAxes ← v.integers? inner "axes" 1
    let rank ← v.rank? x
    let rank := if removesLast then rank + innerAxes.length else rank
    if (← normalizeAxes? rank outerAxes) = (← normalizeAxes? rank innerAxes) then n.forwardTo x
    else none
  else none

/-! Convolution and normalization. -/

/-- The single-precision elements of a constant. -/
def binary32s? (v : View) (name : String) : Option (Array Binary32) := do
  (← v.constant? name).array? Binary32

/-- The epsilon of a normalization. -/
def epsilon? (n : Node) : Option Binary32 :=
  match n.attribute? "epsilon" with
  | some (.float x) => some x
  | some _ => none
  | none => some ⟨0x3727c5ac⟩

/-- The weight and the bias of a convolution whose result is multiplied by the factor of its channel
after the mean is subtracted, before the bias of the normalization is added. -/
structure ScaledConv (α : Type) where
  weight : Array α
  bias : Array α

/-- Put a normalization into the weight and the bias of a convolution. -/
def ScaledConv.fuse {α : Type} [RingOps α] (perChannel : Nat)
    (weight convBias factor mean bias : Array α) : ScaledConv α :=
  { weight := weight.mapIdx fun i w => RingOps.mul w (factor.getD (i / perChannel) RingOps.zero)
    bias := (Array.range convBias.size).map fun c =>
      RingOps.add
        (RingOps.mul (RingOps.sub (convBias.getD c RingOps.zero) (mean.getD c RingOps.zero))
          (factor.getD c RingOps.zero))
        (bias.getD c RingOps.zero) }

/-- A convolution with a normalization of its result. -/
structure NormalizedConv where
  conv : Node
  weightName : String
  weightShape : List Nat
  scaled : ScaledConv Binary32

/-- Find the convolution that a node normalizes, if nothing else reads its result. -/
def normalizedConv? (v : View) (n : Node) : Option NormalizedConv := do
  let training :=
    match n.attribute? "training_mode" with
    | some (.int mode) => mode = 1
    | _ => false
  if !n.isOperator "BatchNormalization" || n.inputs.length ≠ 5 || training ||
      (n.outputs.drop 1).any (fun o => o ≠ "" && v.isUsed o) then none
  else
    let result ← n.input? 0
    let (_, conv) ← v.producer? result
    let weightName ← conv.input? 1
    let weight ← v.constant? weightName
    let weights ← weight.array? Binary32
    let scale ← v.binary32s? (← n.input? 1)
    let bias ← v.binary32s? (← n.input? 2)
    let mean ← v.binary32s? (← n.input? 3)
    let variance ← v.binary32s? (← n.input? 4)
    let channels ← weight.shape.head?
    let convBias ← match conv.input? 2 with
      | some name => v.binary32s? name
      | none => some (Array.replicate channels .zero)
    let epsilon ← epsilon? n
    if !conv.isOperator "Conv" || !v.isUsedOnce result || channels = 0 ||
        [scale, bias, mean, variance, convBias].any (fun xs => xs.size ≠ channels) then none
    else
      let factor := (scale.zip variance).map fun (s, w) => BatchNormalization.factor epsilon s w
      return {
        conv := conv
        weightName := weightName
        weightShape := weight.shape
        scaled := .fuse (weights.size / channels) weights convBias factor mean bias }

/-- Put a normalization into the convolution before it.  The new weight and bias get names that are
taken by no value, and are taken from then on. -/
def fuseNormalizationIntoConv (v : View) (taken : List String) (n : Node) :
    List String × Option Change :=
  match v.normalizedConv? n with
  | none => (taken, none)
  | some found =>
    let weightName := freshName taken (found.weightName ++ "_bn_fused")
    let biasName := freshName (weightName :: taken) (found.weightName ++ "_bn_fused_bias")
    let change : Option Change := do
      let fused : Node :=
        { found.conv with
          inputs := [← found.conv.input? 0, weightName, biasName]
          outputs := [← n.outputs.head?] }
      return .replace [fused]
        [⟨weightName, .ofArray found.weightShape found.scaled.weight⟩,
          ⟨biasName, .vector found.scaled.bias⟩]
    (biasName :: weightName :: taken, change)

/-! Products and sums. -/

/-- The sum of a constant and a product of matrices with a constant second factor. -/
def productAndSum : Pattern :=
  .binary "Add" (.operator "MatMul" [.any "a", .anyConstant "b"] (some "matmul"))
    (.anyConstant "c")

/-- Whether a tensor can be added to a matrix with given dimensions, of which the first may not be
known. -/
def broadcastsToMatrix (shape : List Nat) (rows : Dim) (columns : Nat) : Bool :=
  match shape with
  | [] => true
  | [n] => n = 1 || n = columns
  | [m, n] => (n = 1 || n = columns) && (m = 1 || rows = .fixed m)
  | _ => false

/-- Replace a product of matrices and a sum by one node. -/
def fuseProductAndSum (v : View) (n : Node) : Option Change := do
  if n.isOperator "Add" then
    let output ← n.outputs.head?
    let found ← productAndSum.matches? v.computations output
    let product ← v.graph.nodes[← found.node? "matmul"]?
    let a ← found.value? "a"
    let bName ← found.value? "b"
    let cName ← found.value? "c"
    let b ← v.constant? bName
    let c ← v.constant? cName
    match ← v.knownShape? a, b.shape with
    | [rows, _], [_, columns] =>
      if v.isUsedOnce (← product.outputs.head?) && v.type? a = some .float32 &&
          b.elementType = .float32 && c.elementType = .float32 &&
          broadcastsToMatrix c.shape rows columns then
        let gemm : Node :=
          { name := product.name
            opType := "Gemm"
            inputs := [a, bName, cName]
            outputs := [output] }
        return .replace [gemm] []
      else none
    | _, _ => none
  else none

end View
end TensorGraph
