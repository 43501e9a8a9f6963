import TensorGraph.Facts.Basic
import TensorGraph.Number.Random

/-!
# Random tensors

Operators whose output is random.  With a seed the output is always the same; the bits of the seed
are the first state of the generator.  Without a seed the generator is left to chance.
-/

namespace TensorGraph

/-- The generator for an optional seed.  Without a seed it is the one that is given by chance. -/
def Generator.ofSeed (chance : Generator) : Option Binary32 → Generator
  | some seed => ⟨seed.bits.toUInt64⟩
  | none => chance

/-- A distribution of numbers. -/
inductive Distribution where
  | uniform (low high : Binary32)
  | normal (mean deviation : Binary32)
  deriving DecidableEq, Repr

/-- A number with a given distribution. -/
def Distribution.sample (d : Distribution) (g : Generator) : Binary64 × Generator :=
  match d with
  | uniform low high =>
    let (x, g) := g.binary64
    (low.widen.add (x.mul (high.widen.sub low.widen)), g)
  | normal mean deviation =>
    let (x, g) := g.normal mean deviation
    (x.widen, g)

/-- A tensor of a type from samples. -/
def sampleTensor (type : ElementType) (shape : List Nat) (samples : List Binary64) :
    OpResult Tensor :=
  orFault .unsupportedType (Tensor.ofBinary64s? type shape samples.toArray)

/-- A random tensor of a given shape. -/
structure RandomTensor where
  distribution : Distribution
  shape : List Nat
  type : ElementType
  seed : Option Binary32
  deriving DecidableEq, Repr

namespace RandomTensor

def run (r : RandomTensor) (chance : Generator) : OpResult Tensor :=
  sampleTensor r.type r.shape
    (Generator.draws r.distribution.sample (elementCount r.shape) (.ofSeed chance r.seed)).1

def infer (r : RandomTensor) : FactsResult (List Facts) :=
  .ok [{ type := some r.type, shape := some (r.shape.map Dim.fixed) }]

end RandomTensor

/-- Facts about an output with the shape of the first input, and its type unless one is given. -/
def likeFacts (type : Option ElementType) (inputs : InputFacts) : FactsResult (List Facts) := do
  let input ← inputs.require 0
  return [{ type := type.or input.type, shape := input.shape }]

/-- A random tensor with the shape of the input. -/
structure RandomLike where
  distribution : Distribution
  /-- The type, if it is not that of the input. -/
  type : Option ElementType
  seed : Option Binary32
  deriving DecidableEq, Repr

def RandomLike.run (r : RandomLike) (chance : Generator) (inputs : Inputs) : OpResult Tensor := do
  let t ← inputs.require 0
  RandomTensor.run
    { distribution := r.distribution
      shape := t.shape
      type := r.type.getD t.elementType
      seed := r.seed } chance

/-- Random bits, where each element of the input is the probability of a 1. -/
structure Bernoulli where
  type : Option ElementType
  seed : Option Binary32
  deriving DecidableEq, Repr

namespace Bernoulli

/-- One bit for each probability. -/
def samples : List Binary64 → Generator → List Binary64
  | [], _ => []
  | p :: rest, g =>
    let (x, g) := g.binary64
    (if x.lt p then .one else .zero) :: samples rest g

def run (b : Bernoulli) (chance : Generator) (inputs : Inputs) : OpResult Tensor := do
  let t ← inputs.require 0
  let probabilities ← orFault .unsupportedType t.elements.toBinary64s?
  sampleTensor (b.type.getD t.elementType) t.shape
    (samples probabilities.toList (.ofSeed chance b.seed))

end Bernoulli

/-- Samples from distributions over classes.  The input has a row of logarithms of weights for each
distribution. -/
structure Multinomial where
  count : Nat := 1
  type : ElementType := .int32
  seed : Option Binary32 := none
  deriving DecidableEq, Repr

namespace Multinomial

/-- The class at which the running sum of the weights exceeds a target, or the last one. -/
def classOf (target : Binary64) : List Binary64 → Nat
  | [] => 0
  | [_] => 0
  | w :: rest => if target.lt w then 0 else classOf (target.sub w) rest + 1

/-- A sample for some weights. -/
def sample (weights : List Binary64) (g : Generator) : Binary64 × Generator :=
  let total := weights.foldl Binary64.add .zero
  let (x, g) := g.binary64
  (.ofInt64 (.ofNat (classOf (x.mul total) weights)), g)

/-- Samples for each row of logarithms. -/
def rowSamples (count : Nat) : List (List Binary64) → Generator → List Binary64
  | [], _ => []
  | row :: rest, g =>
    let (xs, g) := Generator.draws (sample (row.map Binary64.exp)) count g
    xs ++ rowSamples count rest g

def run (m : Multinomial) (chance : Generator) (inputs : Inputs) : OpResult Tensor := do
  let t ← inputs.require 0
  match t.shape with
  | [rows, classes] =>
    let logits ← orFault .unsupportedType t.elements.toBinary64s?
    let rowsOf := (List.range rows).map fun i =>
      (logits.extract (i * classes) ((i + 1) * classes)).toList
    sampleTensor m.type [rows, m.count] (rowSamples m.count rowsOf (.ofSeed chance m.seed))
  | _ => .error (.invalidValue "input must have shape [batch, classes]")

def infer (m : Multinomial) (inputs : InputFacts) : FactsResult (List Facts) := do
  let input ← inputs.require 0
  let rows :=
    match input.shape with
    | some [rows, _] => rows
    | _ => .unknown
  return [{ type := some m.type, shape := some [rows, .fixed m.count] }]

end Multinomial
end TensorGraph
