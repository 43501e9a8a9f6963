import TensorGraph.Malformation
import TensorGraph.Operator.Basic

/-!
# Reading operators

The operator of a node is found by its type, and its attributes are read from the node.  Some
attributes have another meaning in old versions of the operator set.
-/

namespace TensorGraph

/-- What is wrong with an attribute. -/
inductive AttributeProblem where
  | missing
  | notOfKind (kind : String)
  | negativeEntry
  | invalidText
  | unsupportedTensor
  | unsupportedType
  | unsupportedWord
  | noConstant
  | notSingle
  | notPositive
  | negative
  | columnMajor
  deriving DecidableEq, Repr

/-- The words that describe what is wrong. -/
def AttributeProblem.message : AttributeProblem → String
  | missing => "required attribute missing"
  | notOfKind kind => "expected " ++ kind ++ " attribute"
  | negativeEntry => "value must be non-negative"
  | invalidText => "string is not valid UTF-8"
  | unsupportedTensor => "unsupported tensor type"
  | unsupportedType => "unsupported data type"
  | unsupportedWord => "unsupported value"
  | noConstant => "unsupported or missing value attribute"
  | notSingle => "must have one element"
  | notPositive => "must be positive"
  | negative => "must be non-negative"
  | columnMajor => "column-major indices are not supported"

/-- Why a node has no operator. -/
inductive ReadError where
  | badAttribute (name : String) (problem : AttributeProblem)
  | unavailable (opType : String)
  deriving DecidableEq, Repr

/-- The words that describe why a node has no operator. -/
def ReadError.message : ReadError → String
  | badAttribute name problem => "error in attribute " ++ quoted name ++ ": " ++ problem.message
  | unavailable opType => "operator " ++ opType ++ " is not supported"

/-- The result of reading. -/
abbrev ReadResult (α : Type) := Except ReadError α

/-! Attributes as values of a kind. -/

namespace AttributeValue

def asFloat : AttributeValue → Except AttributeProblem Binary32
  | float x => .ok x
  | _ => .error (.notOfKind "float")

def asInt : AttributeValue → Except AttributeProblem Int
  | int v => .ok v.toInt
  | _ => .error (.notOfKind "int")

def asBool (v : AttributeValue) : Except AttributeProblem Bool := (· ≠ 0) <$> v.asInt

def asInts : AttributeValue → Except AttributeProblem (List Int)
  | ints vs => .ok (vs.map Int64.toInt)
  | _ => .error (.notOfKind "ints")

def asNats (v : AttributeValue) : Except AttributeProblem (List Nat) := do
  let vs ← v.asInts
  if vs.all (0 ≤ ·) then return vs.map Int.toNat else .error .negativeEntry

/-- A number that counts something. -/
def asCount (v : AttributeValue) : Except AttributeProblem Nat := do
  let v ← v.asInt
  if 0 ≤ v then return v.toNat else .error .negative

def asText : AttributeValue → Except AttributeProblem String
  | string bytes =>
    match String.fromUTF8? ⟨bytes.toArray⟩ with
    | some s => .ok s
    | none => .error .invalidText
  | _ => .error (.notOfKind "string")

/-- A tensor that can be computed with. -/
def asTensor : AttributeValue → Except AttributeProblem Tensor
  | tensor t => if t.isEvaluable then .ok t else .error .unsupportedTensor
  | _ => .error (.notOfKind "tensor")

def asGraph : AttributeValue → Except AttributeProblem Graph
  | graph g => .ok g
  | _ => .error (.notOfKind "graph")

/-- The element type with a code, of which the low 32 bits count. -/
def asType : AttributeValue → Except AttributeProblem ElementType
  | int v =>
    match ElementType.ofCode? v.toInt32 with
    | some t => .ok t
    | none => .error .unsupportedType
  | _ => .error (.notOfKind "int")

end AttributeValue

namespace Node

/-- Read the attribute with a name, if it is there. -/
def read? {α : Type} (n : Node) (name : String) (f : AttributeValue → Except AttributeProblem α) :
    ReadResult (Option α) :=
  match n.attribute? name with
  | some v =>
    match f v with
    | .ok x => .ok (some x)
    | .error problem => .error (.badAttribute name problem)
  | none => .ok none

/-- Read the attribute with a name, or use a default. -/
def readOr {α : Type} (n : Node) (name : String) (default : α)
    (f : AttributeValue → Except AttributeProblem α) : ReadResult α :=
  (·.getD default) <$> n.read? name f

/-- Read the attribute with a name, which must be there. -/
def readRequired {α : Type} (n : Node) (name : String)
    (f : AttributeValue → Except AttributeProblem α) : ReadResult α := do
  match ← n.read? name f with
  | some x => return x
  | none => .error (.badAttribute name .missing)

end Node

/-! Operators with several attributes. -/

namespace Operator

open AttributeValue

/-- The padding that a word stands for: `some none` if it is given by numbers. -/
def paddingOfWord : String → Option (Option Padding)
  | "NOTSET" => some none
  | "SAME_UPPER" => some (some .sameUpper)
  | "SAME_LOWER" => some (some .sameLower)
  | "VALID" => some (some .valid)
  | _ => none

def readPadding (n : Node) : ReadResult Padding := do
  let word ← n.read? "auto_pad" fun v => do
    match paddingOfWord (← v.asText) with
    | some padding => return padding
    | none => .error .unsupportedWord
  match word.join with
  | some padding => return padding
  | none => return .explicit (← n.readOr "pads" [] asNats)

def readWindow (n : Node) : ReadResult Window := do
  let kernel ← n.readRequired "kernel_shape" asNats
  let strides ← n.readOr "strides" [] asNats
  let dilations ← n.readOr "dilations" [] asNats
  let padding ← readPadding n
  let ceilMode ← n.readOr "ceil_mode" false asBool
  return {
    kernel := kernel
    strides := strides
    dilations := dilations
    padding := padding
    ceilMode := ceilMode }

def readArgSelect (largest : Bool) (n : Node) : ReadResult Kernel := do
  let axis ← n.readOr "axis" 0 asInt
  let keepDims ← n.readOr "keepdims" true asBool
  let selectLast ← n.readOr "select_last_index" false asBool
  return .argSelect
    { largest := largest, axis := axis, keepDims := keepDims, selectLast := selectLast }

def readReduction (kind : ReduceKind) (n : Node) : ReadResult Kernel := do
  let axes ← n.read? "axes" asInts
  let keepDims ← n.readOr "keepdims" true asBool
  let noop ← n.readOr "noop_with_empty_axes" false asBool
  return .reduce { kind := kind, axes := axes, keepDims := keepDims, noopWithEmptyAxes := noop }

def readAveragePool (n : Node) : ReadResult Kernel := do
  let window ← readWindow n
  return .averagePool
    { window := window, countPadding := ← n.readOr "count_include_pad" false asBool }

def readMaxPool (n : Node) : ReadResult Kernel := do
  if (← n.readOr "storage_order" 0 asInt) ≠ 0 then
    .error (.badAttribute "storage_order" .columnMajor)
  else return .maxPool { window := ← readWindow n }

/-- Read a constant from the first of the attributes that may hold it. -/
def readConstant (n : Node) : ReadResult Kernel := do
  if let some t ← n.read? "value" asTensor then return .constant t
  if let some x ← n.read? "value_float" asFloat then return .constant (.scalar x)
  if let some xs ← n.read? "value_floats" asFloats then return .constant (.vector xs.toArray)
  if let some v ← n.read? "value_int" asInt then return .constant (.scalar (Int64.ofInt v))
  if let some vs ← n.read? "value_ints" asInts then
    return .constant (.vector (vs.map Int64.ofInt).toArray)
  .error (.badAttribute "value" .noConstant)
where
  asFloats : AttributeValue → Except AttributeProblem (List Binary32)
    | floats xs => .ok xs
    | _ => .error (.notOfKind "floats")

def readConstantOfShape (n : Node) : ReadResult Kernel := do
  let value ← n.readOr "value" (.vector #[Binary32.zero]) fun v => do
    let t ← v.asTensor
    if t.size = 1 then return t else .error .notSingle
  return .constantOfShape value

def readConv (n : Node) : ReadResult Kernel := do
  let groups ← n.readOr "group" 1 fun v => do
    let v ← v.asInt
    if 0 < v then return v.toNat else .error .notPositive
  let kernelShape ← n.read? "kernel_shape" asNats
  let padding ← readPadding n
  let strides ← n.readOr "strides" [] asNats
  let dilations ← n.readOr "dilations" [] asNats
  return .conv {
    padding := padding
    groups := groups
    strides := strides
    dilations := dilations
    kernelShape := kernelShape }

def readGemm (n : Node) : ReadResult Kernel := do
  let alpha ← n.readOr "alpha" .one asFloat
  let beta ← n.readOr "beta" .one asFloat
  let transposeA ← n.readOr "transA" false asBool
  let transposeB ← n.readOr "transB" false asBool
  return .gemm { alpha := alpha, beta := beta, transposeA := transposeA, transposeB := transposeB }

/-- Read a uniform distribution, on the numbers from 0 to 1 by default. -/
def readUniform (n : Node) : ReadResult Distribution := do
  let low ← n.readOr "low" .zero asFloat
  return .uniform low (← n.readOr "high" .one asFloat)

/-- Read a normal distribution, by default with mean 0 and deviation 1. -/
def readNormal (n : Node) : ReadResult Distribution := do
  let mean ← n.readOr "mean" .zero asFloat
  return .normal mean (← n.readOr "scale" .one asFloat)

def readRandom (distribution : Node → ReadResult Distribution) (n : Node) : ReadResult Kernel := do
  let distribution ← distribution n
  let shape ← n.readRequired "shape" asNats
  let type ← n.readOr "dtype" .float32 asType
  let seed ← n.read? "seed" asFloat
  return .random { distribution := distribution, shape := shape, type := type, seed := seed }

def readRandomLike (distribution : Node → ReadResult Distribution) (n : Node) :
    ReadResult Kernel := do
  let distribution ← distribution n
  let type ← n.read? "dtype" asType
  let seed ← n.read? "seed" asFloat
  return .randomLike { distribution := distribution, type := type, seed := seed }

def readBernoulli (n : Node) : ReadResult Kernel := do
  let type ← n.read? "dtype" asType
  return .bernoulli { type := type, seed := ← n.read? "seed" asFloat }

def readMultinomial (n : Node) : ReadResult Kernel := do
  let count ← n.readOr "sample_size" 1 asCount
  let type ← n.readOr "dtype" .int32 asType
  return .multinomial { count := count, type := type, seed := ← n.read? "seed" asFloat }

def readHardSigmoid (n : Node) : ReadResult Kernel := do
  let alpha ← n.readOr "alpha" ⟨0x3e4ccccd⟩ asFloat
  return .unary (.hardSigmoid alpha (← n.readOr "beta" ⟨0x3f000000⟩ asFloat))

def readClip (n : Node) : ReadResult Kernel := do
  let low ← n.read? "min" asFloat
  return .clip low (← n.read? "max" asFloat)

def readShape (n : Node) : ReadResult Kernel := do
  let start ← n.read? "start" asInt
  return .shape start (← n.read? "end" asInt)

def readSlice (n : Node) : ReadResult Kernel := do
  let starts ← n.read? "starts" asInts
  let stops ← n.read? "ends" asInts
  return .slice { starts := starts, stops := stops, axes := ← n.read? "axes" asInts }

def readSplit (n : Node) : ReadResult Kernel := do
  let count ← n.readOr "num_outputs" n.outputs.length asCount
  let axis ← n.readOr "axis" 0 asInt
  return .split { axis := axis, sizes := ← n.read? "split" asInts, count := some count }

/-- Before version 13 the input was seen as a matrix, split at axis 1 by default. -/
def readSoftmax (legacy : Bool) (n : Node) : ReadResult Kernel := do
  return .softmax { axis := ← n.readOr "axis" (if legacy then 1 else -1) asInt, flatten := legacy }

/-- Before version 7 elements are dropped unless the node says that this is a test. -/
def readDropout (legacy : Bool) (n : Node) : ReadResult Kernel := do
  if legacy then return .dropout !(← n.readOr "is_test" false asBool) else return .dropout false

/-- Whether the version of the operator set is at least the given one.  No version is the newest. -/
def isSince (version : Int64) : Option Int64 → Bool
  | some v => version ≤ v
  | none => true

/-- Read the kernel with a given operator type, if there is one. -/
def readKernel? (version : Option Int64) (n : Node) : Option (ReadResult Kernel) :=
  match n.opType with
  | "Abs" => plain (.unary .abs)
  | "Add" => plain (.binary .add)
  | "And" => plain (.binary .and)
  | "ArgMax" => some (readArgSelect true n)
  | "ArgMin" => some (readArgSelect false n)
  | "AveragePool" => some (readAveragePool n)
  | "BatchNormalization" =>
    some ((fun e => .batchNormalization ⟨e⟩) <$> n.readOr "epsilon" ⟨0x3727c5ac⟩ asFloat)
  | "Bernoulli" => some (readBernoulli n)
  | "Cast" => some (.cast <$> n.readRequired "to" asType)
  | "CastLike" => plain .castLike
  | "Ceil" => plain (.unary .ceil)
  | "Clip" => some (readClip n)
  | "Concat" => some (.concat <$> n.readRequired "axis" asInt)
  | "Constant" => some (readConstant n)
  | "ConstantOfShape" => some (readConstantOfShape n)
  | "Conv" => some (readConv n)
  | "Cos" => plain (.unary .cos)
  | "Div" => plain (.binary .div)
  | "Dropout" => some (readDropout (!isSince 7 version) n)
  | "Elu" => some ((fun a => .unary (.elu a)) <$> n.readOr "alpha" .one asFloat)
  | "Equal" => plain (.binary .equal)
  | "Erf" => plain (.unary .erf)
  | "Exp" => plain (.unary .exp)
  | "Expand" => plain .expand
  | "Flatten" => some (.flatten <$> n.readOr "axis" 1 asInt)
  | "Floor" => plain (.unary .floor)
  | "Gather" => some (.gather <$> n.readOr "axis" 0 asInt)
  | "Gemm" => some (readGemm n)
  | "GlobalAveragePool" => plain .globalAveragePool
  | "Greater" => plain (.binary .greater)
  | "GreaterOrEqual" => plain (.binary .greaterOrEqual)
  | "HardSigmoid" => some (readHardSigmoid n)
  | "Identity" => plain .identity
  | "LeakyRelu" =>
    some ((fun a => .unary (.leakyRelu a)) <$> n.readOr "alpha" ⟨0x3c23d70a⟩ asFloat)
  | "Less" => plain (.binary .less)
  | "LessOrEqual" => plain (.binary .lessOrEqual)
  | "Log" => plain (.unary .log)
  | "MatMul" => plain .matMul
  | "Max" => plain (.variadic .max)
  | "MaxPool" => some (readMaxPool n)
  | "Mean" => plain (.variadic .mean)
  | "Min" => plain (.variadic .min)
  | "Mod" => some ((fun t => .binary (.mod t)) <$> n.readOr "fmod" false asBool)
  | "Mul" => plain (.binary .mul)
  | "Multinomial" => some (readMultinomial n)
  | "Neg" => plain (.unary .neg)
  | "NonZero" => plain .nonZero
  | "Not" => plain (.unary .not)
  | "Or" => plain (.binary .or)
  | "Pow" => plain (.binary .pow)
  | "RandomNormal" => some (readRandom readNormal n)
  | "RandomNormalLike" => some (readRandomLike readNormal n)
  | "RandomUniform" => some (readRandom readUniform n)
  | "RandomUniformLike" => some (readRandomLike readUniform n)
  | "Range" => plain .range
  | "Reciprocal" => plain (.unary .reciprocal)
  | "ReduceMax" => some (readReduction .max n)
  | "ReduceMean" => some (readReduction .mean n)
  | "ReduceMin" => some (readReduction .min n)
  | "ReduceProd" => some (readReduction .prod n)
  | "ReduceSum" => some (readReduction .sum n)
  | "Relu" => plain (.unary .relu)
  | "Reshape" => some (.reshape <$> n.readOr "allowzero" false asBool)
  | "Round" => plain (.unary .round)
  | "Shape" => some (readShape n)
  | "Sigmoid" => plain (.unary .sigmoid)
  | "Sign" => plain (.unary .sign)
  | "Sin" => plain (.unary .sin)
  | "Size" => plain .size
  | "Slice" => some (readSlice n)
  | "Softmax" => some (readSoftmax (!isSince 13 version) n)
  | "Softplus" => plain (.unary .softplus)
  | "Split" => some (readSplit n)
  | "Sqrt" => plain (.unary .sqrt)
  | "Squeeze" => some (.squeeze <$> n.read? "axes" asInts)
  | "Sub" => plain (.binary .sub)
  | "Sum" => plain (.variadic .sum)
  | "Tanh" => plain (.unary .tanh)
  | "Tile" => plain .tile
  | "Transpose" => some (.transpose <$> n.read? "perm" asInts)
  | "Unsqueeze" => some (.unsqueeze <$> n.read? "axes" asInts)
  | "Where" => plain .select
  | "Xor" => plain (.binary .xor)
  | _ => none
where
  /-- A kernel without attributes. -/
  plain (k : Kernel) : Option (ReadResult Kernel) := some (.ok k)

/-- Read a branch. -/
def readBranch (n : Node) : ReadResult Operator := do
  let onTrue ← n.readRequired "then_branch" asGraph
  return .branch onTrue (← n.readRequired "else_branch" asGraph)

/-- Read the operator of a node, for a version of the default operator set. -/
def ofNode (version : Option Int64) (n : Node) : ReadResult Operator :=
  if n.isDefaultDomain then
    if n.opType = "If" then readBranch n
    else if n.opType = "Loop" then .loop <$> n.readRequired "body" asGraph
    else
      match readKernel? version n with
      | some k => .kernel <$> k
      | none => .error (.unavailable n.opType)
  else .error (.unavailable n.opType)

theorem asGraph_eq {v : AttributeValue} {g : Graph} (h : v.asGraph = .ok g) : v = .graph g := by
  cases v <;> simp_all [AttributeValue.asGraph]

/-- A graph that is read from a node is smaller than the node. -/
theorem sizeOf_readRequired {n : Node} {name : String} {g : Graph}
    (h : n.readRequired name asGraph = .ok g) : sizeOf g < sizeOf n := by
  suffices found : n.graph? name = some g from Node.sizeOf_graph? found
  unfold Node.readRequired Node.read? at h
  unfold Node.graph?
  cases hv : n.attribute? name with
  | none => simp [hv, bind, Except.bind] at h
  | some v =>
    cases hg : v.asGraph with
    | error e => simp [hv, hg, bind, Except.bind] at h
    | ok g' =>
      rw [asGraph_eq hg]
      simp [hv, hg, bind, Except.bind, pure, Except.pure] at h
      simp [h]

/-- The branches of an operator are smaller than its node. -/
theorem sizeOf_branch {version : Option Int64} {n : Node} {onTrue onFalse : Graph}
    (h : ofNode version n = .ok (.branch onTrue onFalse)) :
    sizeOf onTrue < sizeOf n ∧ sizeOf onFalse < sizeOf n := by
  unfold ofNode at h
  split at h
  · split at h
    · unfold readBranch at h
      cases ht : n.readRequired "then_branch" asGraph with
      | error e => simp [ht, bind, Except.bind] at h
      | ok t =>
        cases he : n.readRequired "else_branch" asGraph with
        | error e => simp [ht, he, bind, Except.bind] at h
        | ok e =>
          simp only [ht, he, bind, Except.bind, pure, Except.pure, Except.ok.injEq,
            Operator.branch.injEq] at h
          obtain ⟨rfl, rfl⟩ := h
          exact ⟨sizeOf_readRequired ht, sizeOf_readRequired he⟩
    · split at h
      · cases hb : n.readRequired "body" asGraph <;> simp [hb, Functor.map, Except.map] at h
      · split at h
        · rename_i k _
          cases k <;> simp [Functor.map, Except.map] at h
        · simp at h
  · simp at h

/-- The body of an operator is smaller than its node. -/
theorem sizeOf_loop {version : Option Int64} {n : Node} {body : Graph}
    (h : ofNode version n = .ok (.loop body)) : sizeOf body < sizeOf n := by
  unfold ofNode at h
  split at h
  · split at h
    · unfold readBranch at h
      cases ht : n.readRequired "then_branch" asGraph <;>
        cases he : n.readRequired "else_branch" asGraph <;>
        simp [ht, he, bind, Except.bind, pure, Except.pure] at h
    · split at h
      · cases hb : n.readRequired "body" asGraph with
        | error e => simp [hb, Functor.map, Except.map] at h
        | ok b =>
          simp only [hb, Functor.map, Except.map, Except.ok.injEq, Operator.loop.injEq] at h
          subst h
          exact sizeOf_readRequired hb
      · split at h
        · rename_i k _
          cases k <;> simp [Functor.map, Except.map] at h
        · simp at h
  · simp at h

/-- Whether there is an operator of a type. -/
def isKnown (opType : String) : Bool :=
  opType == "If" || opType == "Loop" || (readKernel? none { opType := opType }).isSome

end Operator
end TensorGraph
