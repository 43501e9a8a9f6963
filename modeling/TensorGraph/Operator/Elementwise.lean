import TensorGraph.Facts.Elementwise
import TensorGraph.Tensor.Index

/-!
# Elementwise operators

Operators that compute each output element from the elements of their inputs at the same index,
after the inputs were broadcast to one shape.
-/

namespace TensorGraph

/-- Apply a function to each element. -/
def mapTensor {α β : Type} [Element α] [Element β] (t : Tensor) (f : α → β) : OpResult Tensor := do
  return .ofArray t.shape ((← t.arrayOf α).map f)

/-- Combine the elements of two tensors of equal shape. -/
def zipElements {α β : Type} (f : α → α → Option β) (xs ys : Array α) : Option (Array β) :=
  ((xs.toList.zip ys.toList).mapM fun (x, y) => f x y).map List.toArray

/-- Combine the elements of two tensors that are broadcast to one shape.  The combination has no
result where an integer is divided by zero. -/
def binaryMap {α β : Type} [Element α] [Element β] (f : α → α → Option β) (a b : Tensor) :
    OpResult Tensor := do
  let shape ← orFault (.incompatibleShapes "cannot broadcast inputs")
    (broadcastShapes a.shape b.shape)
  let xs ← a.arrayOf α
  let ys ← b.arrayOf α
  let out :=
    if a.shape = b.shape then zipElements f xs ys
    else
      zipElements f (takeAt xs (broadcastOffsets a.shape shape))
        (takeAt ys (broadcastOffsets b.shape shape))
  return .ofArray shape (← orFault (.invalidValue "integer division by zero") out)

/-- Functions of one element. -/
inductive UnaryFunction where
  | abs
  | neg
  | relu
  | sign
  | ceil
  | cos
  | erf
  | exp
  | floor
  | log
  | reciprocal
  | round
  | sigmoid
  | sin
  | softplus
  | sqrt
  | tanh
  | not
  | elu (alpha : Binary32)
  | hardSigmoid (alpha beta : Binary32)
  | leakyRelu (alpha : Binary32)
  deriving DecidableEq, Repr

namespace UnaryFunction

open RingOps Arith RealOps

def name : UnaryFunction → String
  | abs => "Abs"
  | neg => "Neg"
  | relu => "Relu"
  | sign => "Sign"
  | ceil => "Ceil"
  | cos => "Cos"
  | erf => "Erf"
  | exp => "Exp"
  | floor => "Floor"
  | log => "Log"
  | reciprocal => "Reciprocal"
  | round => "Round"
  | sigmoid => "Sigmoid"
  | sin => "Sin"
  | softplus => "Softplus"
  | sqrt => "Sqrt"
  | tanh => "Tanh"
  | not => "Not"
  | elu _ => "Elu"
  | hardSigmoid _ _ => "HardSigmoid"
  | leakyRelu _ => "LeakyRelu"

/-- Apply a function of numeric elements. -/
def mapNumeric (t : Tensor) (f : (α : Type) → [Arith α] → α → α) : OpResult Tensor :=
  t.elementType.dispatchNumeric fun α _ _ => mapTensor t (f α)

/-- Apply a function of floating-point elements. -/
def mapReal (t : Tensor) (f : (α : Type) → [RealOps α] → α → α) : OpResult Tensor :=
  t.elementType.dispatchReal fun α _ _ => mapTensor t (f α)

/-- Apply a function to each element of a tensor. -/
def run (f : UnaryFunction) (t : Tensor) : OpResult Tensor :=
  match f with
  | abs => mapNumeric t fun _ _ x => Arith.abs x
  | neg => mapNumeric t fun _ _ x => Arith.neg x
  | relu => mapNumeric t fun _ _ x => if lt x zero then zero else x
  | sign => mapNumeric t fun _ _ x => Arith.sign x
  | ceil => mapReal t fun _ _ x => RealOps.ceil x
  | cos => mapReal t fun _ _ x => RealOps.cos x
  | erf => mapReal t fun _ _ x => RealOps.erf x
  | exp => mapReal t fun _ _ x => RealOps.exp x
  | floor => mapReal t fun _ _ x => RealOps.floor x
  | log => mapReal t fun _ _ x => ln x
  | reciprocal => mapReal t fun _ _ x => div one x
  | round => mapReal t fun _ _ x => roundEven x
  | sigmoid => mapReal t fun _ _ x => div one (add one (RealOps.exp (Arith.neg x)))
  | sin => mapReal t fun _ _ x => RealOps.sin x
  | softplus => mapReal t fun _ _ x => ln (add (RealOps.exp x) one)
  | sqrt => mapReal t fun _ _ x => RealOps.sqrt x
  | tanh => mapReal t fun _ _ x => RealOps.tanh x
  | not => mapTensor t Bool.not
  | elu alpha => mapReal t fun _ _ x =>
    if lt x zero then mul (ofBinary32 alpha) (sub (RealOps.exp x) one) else x
  | hardSigmoid alpha beta => mapReal t fun _ _ x =>
    Arith.min (Arith.max (add (mul (ofBinary32 alpha) x) (ofBinary32 beta)) zero) one
  | leakyRelu alpha => mapReal t fun _ _ x =>
    if lt x zero then mul (ofBinary32 alpha) x else x

end UnaryFunction

/-- Hold a value between two bounds, either of which may be missing. -/
def clipElement {α : Type} [Arith α] (low high : Option α) (x : α) : α :=
  let x := match low with
    | some low => if Arith.lt x low then low else x
    | none => x
  match high with
  | some high => if Arith.lt high x then high else x
  | none => x

/-- A bound for clipping: an input, or an attribute if there is no such input. -/
def clipBound (α : Type) [Element α] (inputs : Inputs) (i : Nat) (default : Option Binary32) :
    OpResult (Option α) :=
  match inputs.get? i with
  | some t =>
    (orFault (.invalidValue "clip bounds must be scalars of the input type") (t.item? α)).map some
  | none => .ok (default.map fun x => Element.ofBinary64 x.widen)

/-- Hold the elements of the first input between bounds. -/
def runClip (low high : Option Binary32) (inputs : Inputs) : OpResult Tensor := do
  let t ← inputs.require 0
  t.elementType.dispatchNumeric fun α _ _ => do
    let low ← clipBound α inputs 1 low
    let high ← clipBound α inputs 2 high
    mapTensor t (clipElement low high)

/-- Functions of two elements. -/
inductive BinaryFunction where
  | add
  | sub
  | mul
  | div
  | pow
  /-- The remainder, with the sign of the dividend if `truncated` holds and else of the divisor. -/
  | mod (truncated : Bool)
  | equal
  | less
  | lessOrEqual
  | greater
  | greaterOrEqual
  | and
  | or
  | xor
  deriving DecidableEq, Repr

namespace BinaryFunction

def name : BinaryFunction → String
  | add => "Add"
  | sub => "Sub"
  | mul => "Mul"
  | div => "Div"
  | pow => "Pow"
  | mod _ => "Mod"
  | equal => "Equal"
  | less => "Less"
  | lessOrEqual => "LessOrEqual"
  | greater => "Greater"
  | greaterOrEqual => "GreaterOrEqual"
  | and => "And"
  | or => "Or"
  | xor => "Xor"

/-- Combine numeric elements. -/
def numeric (a b : Tensor) (f : (α : Type) → [Arith α] → α → α → Option α) : OpResult Tensor :=
  a.elementType.dispatchNumeric fun α _ _ => binaryMap (f α) a b

/-- Compare numeric elements. -/
def compare (a b : Tensor) (f : (α : Type) → [Arith α] → α → α → Bool) : OpResult Tensor :=
  a.elementType.dispatchNumeric fun α _ _ => binaryMap (fun (x y : α) => some (f α x y)) a b

/-- Combine boolean elements. -/
def logical (a b : Tensor) (f : Bool → Bool → Bool) : OpResult Tensor :=
  if a.elementType = .bool then binaryMap (fun x y => some (f x y)) a b
  else .error .unsupportedType

/-- Combine the elements of two tensors.  The exponent of a power is converted to the type of the
base. -/
def run (f : BinaryFunction) (a b : Tensor) : OpResult Tensor :=
  match f with
  | add => numeric a b fun _ _ x y => some (RingOps.add x y)
  | sub => numeric a b fun _ _ x y => some (RingOps.sub x y)
  | mul => numeric a b fun _ _ x y => some (RingOps.mul x y)
  | div => numeric a b fun _ _ x y => Arith.div? x y
  | pow => do
    let b ← orFault .unsupportedType (b.cast? a.elementType)
    numeric a b fun _ _ x y => some (Arith.pow x y)
  | mod truncated => numeric a b fun _ _ x y => Arith.modulo? truncated x y
  | equal =>
    if a.elementType = .bool then logical a b (· == ·)
    else compare a b fun _ _ x y => Arith.eq x y
  | less => compare a b fun _ _ x y => Arith.lt x y
  | lessOrEqual => compare a b fun _ _ x y => Arith.le x y
  | greater => compare a b fun _ _ x y => Arith.lt y x
  | greaterOrEqual => compare a b fun _ _ x y => Arith.le y x
  | and => logical a b (· && ·)
  | or => logical a b (· || ·)
  | xor => logical a b (· != ·)

/-- Combine two integers as the kernel for 64-bit integers does. -/
def foldIntegers (f : Int64 → Int64 → Option Int64) (a b : SizeExpr) : Option SizeExpr := do
  let v ← f (.ofInt (← a.constant?)) (.ofInt (← b.constant?))
  return .const v.toInt

/-- The truth value of a comparison, if both sides are integers, or if they are equal and that is
enough. -/
def foldComparison (f : Int → Int → Bool) (whenEqual : Option Bool) (a b : SizeExpr) :
    Option SizeExpr :=
  match a.constant?, b.constant? with
  | some x, some y => some (.const (if f x y then 1 else 0))
  | _, _ =>
    if a = b then whenEqual.map fun result => .const (if result then 1 else 0) else none

/-- How known elements are combined.  Sizes are not negative, so that rounding a quotient down
agrees with cutting off its fraction. -/
def valueRule : BinaryFunction → Option ValueRule
  | add => some fun a b => some (a.plus b)
  | sub => some fun a b => some (a.minus b)
  | mul => some fun a b => some (a.times b)
  | div => some fun a b =>
    match a.constant?, b.constant? with
    | some _, some _ => foldIntegers Arith.div? a b
    | none, some y => if 0 < y then some (a.quotient b) else none
    | _, none => none
  | pow => none
  | mod truncated => some (foldIntegers (Arith.modulo? truncated))
  | equal => some (foldComparison (· == ·) (some true))
  | less => some (foldComparison (· < ·) (some false))
  | lessOrEqual => some (foldComparison (· ≤ ·) (some true))
  | greater => some (foldComparison (· > ·) (some false))
  | greaterOrEqual => some (foldComparison (· ≥ ·) (some true))
  | and => some (foldComparison (fun x y => x != 0 && y != 0) none)
  | or => some (foldComparison (fun x y => x != 0 || y != 0) none)
  | xor => some (foldComparison (fun x y => (x != 0) != (y != 0)) (some false))

/-- The type of the output, if it is not that of the inputs. -/
def outputType? : BinaryFunction → Option ElementType
  | equal | less | lessOrEqual | greater | greaterOrEqual | and | or | xor => some .bool
  | _ => none

/-- Facts about the output. -/
def infer (f : BinaryFunction) (inputs : InputFacts) : FactsResult (List Facts) := do
  let a ← inputs.require 0
  let b ← inputs.require 1
  return [← binaryFacts f.outputType? f.valueRule a b]

end BinaryFunction

/-- Operators that combine any number of inputs pairwise. -/
inductive VariadicFunction where
  | sum
  | max
  | min
  | mean
  deriving DecidableEq, Repr

namespace VariadicFunction

def name : VariadicFunction → String
  | sum => "Sum"
  | max => "Max"
  | min => "Min"
  | mean => "Mean"

/-- Combine two of the inputs. -/
def step (f : VariadicFunction) (a b : Tensor) : OpResult Tensor :=
  match f with
  | sum => BinaryFunction.numeric a b fun _ _ x y => some (RingOps.add x y)
  | max => BinaryFunction.numeric a b fun _ _ x y => some (Arith.max x y)
  | min => BinaryFunction.numeric a b fun _ _ x y => some (Arith.min x y)
  | mean => a.elementType.dispatchReal fun α _ _ =>
    binaryMap (fun (x y : α) => some (RingOps.add x y)) a b

/-- Combine all inputs that are there.  A mean divides the sum by their number. -/
def run (f : VariadicFunction) (inputs : Inputs) : OpResult Tensor :=
  match inputs.present with
  | [] => .error .missingInputs
  | first :: rest => do
    let total ← rest.foldlM f.step first
    match f with
    | mean =>
      let count ← orFault .unsupportedType
        ((Tensor.scalar (Binary64.ofInt64 (.ofNat (rest.length + 1)))).cast? total.elementType)
      total.elementType.dispatchReal fun α _ _ =>
        binaryMap (fun (x y : α) => some (RealOps.div x y)) total count
    | _ => return total

/-- How known elements are combined. -/
def valueRule : VariadicFunction → Option ValueRule
  | sum => some fun a b => some (a.plus b)
  | max => some fun a b => some (a.larger b)
  | min => some fun a b => some (a.smaller b)
  | mean => none

/-- Facts about the output. -/
def infer (f : VariadicFunction) (inputs : InputFacts) : FactsResult (List Facts) :=
  match inputs.filterMap fun x => x with
  | [] => .error .inputCount
  | first :: rest => do return [← rest.foldlM (binaryFacts none f.valueRule) first]

end VariadicFunction

/-- Select the elements of the second input where the first holds, and of the third elsewhere. -/
def runWhere (inputs : Inputs) : OpResult Tensor := do
  let cond ← inputs.require 0
  let x ← inputs.require 1
  let y ← inputs.require 2
  let shape ← orFault (.incompatibleShapes "cannot broadcast inputs") do
    broadcastShapes (← broadcastShapes cond.shape x.shape) y.shape
  let chosen := takeAt (← cond.arrayOf Bool) (broadcastOffsets cond.shape shape)
  x.elementType.dispatch fun α _ => do
    let xs := takeAt (← x.arrayOf α) (broadcastOffsets x.shape shape)
    let ys := takeAt (← y.arrayOf α) (broadcastOffsets y.shape shape)
    let out := (chosen.toList.zip (xs.toList.zip ys.toList)).map fun (c, x, y) => if c then x else y
    return .ofArray shape out.toArray

/-- Select among known elements by a known condition. -/
def selectValues (cond xs ys : List SizeExpr) : Option (List SizeExpr) :=
  (List.range (max (max cond.length xs.length) ys.length)).mapM fun i => do
    let c ← (← broadcastValue? cond i).constant?
    if c = 0 then broadcastValue? ys i else broadcastValue? xs i

/-- Facts about a selection. -/
def inferWhere (inputs : InputFacts) : FactsResult (List Facts) := do
  let cond ← inputs.require 0
  let x ← inputs.require 1
  let y ← inputs.require 2
  let shape ← match cond.shape, x.shape, y.shape with
    | some c, some xs, some ys => do
      let joined ← broadcastDims c xs
      (broadcastDims joined ys).map some
    | _, _, _ => .ok none
  let values :=
    match cond.values, x.values, y.values, shape with
    | some c, some xs, some ys, some dims =>
      if dims.length ≤ 1 then selectValues c xs ys else none
    | _, _, _, _ => none
  return [{ type := x.type.or y.type, shape := shape, values := values }]

end TensorGraph
