import TensorGraph.Tensor.Basic

/-!
# Indexes and offsets

The indexes of a shape in row-major order, the offsets of elements that are laid out with strides,
and the broadcasting of shapes, which are aligned on the right.
-/

namespace TensorGraph

/-- The quotient, rounded up, for a positive divisor. -/
def divideUp (a b : Nat) : Nat := (a + b - 1) / b

/-- The row-major strides of a shape. -/
def strides : List Nat → List Nat
  | [] => []
  | _ :: rest => elementCount rest :: strides rest

/-- All indexes of a shape in row-major order. -/
def indexes : List Nat → List (List Nat)
  | [] => [[]]
  | n :: rest =>
    let inner := indexes rest
    (List.range n).flatMap fun i => inner.map (i :: ·)

/-- The distance of an index from the first element. -/
def offsetOf : (index : List Nat) → (steps : List Int) → Int
  | i :: index, step :: steps => i * step + offsetOf index steps
  | _, _ => 0

/-- The offsets of all elements of a shape that are laid out from `base` on.  Strides may be
negative. -/
def stridedOffsets (shape : List Nat) (steps : List Int) (base : Int) : List Nat :=
  (indexes shape).map fun index => (base + offsetOf index steps).toNat

/-- The size of a dimension that two sizes broadcast to. -/
def broadcastSize (a b : Nat) : Option Nat :=
  if a = b then some a else if a = 1 then some b else if b = 1 then some a else none

/-- Broadcast two shapes that are given from the last dimension on. -/
def broadcastReversed : List Nat → List Nat → Option (List Nat)
  | [], bs => some bs
  | as, [] => some as
  | a :: as, b :: bs => do return (← broadcastSize a b) :: (← broadcastReversed as bs)

/-- The shape that two shapes broadcast to. -/
def broadcastShapes (a b : List Nat) : Option (List Nat) :=
  (broadcastReversed a.reverse b.reverse).map List.reverse

/-- The strides with which a shape is read when it is broadcast: a dimension of size 1 repeats its
element. -/
def broadcastStrides (shape out : List Nat) : List Int :=
  List.replicate (out.length - shape.length) 0 ++
    (shape.zip (strides shape)).map fun (n, step) => if n = 1 then 0 else (step : Int)

/-- For each element of the broadcast shape, the offset of the element that it repeats. -/
def broadcastOffsets (shape out : List Nat) : List Nat :=
  stridedOffsets out (broadcastStrides shape out) 0

/-- The elements at some offsets. -/
def takeAt {α : Type} [Inhabited α] (xs : Array α) (offsets : List Nat) : Array α :=
  (offsets.map fun i => xs.getD i default).toArray

end TensorGraph
