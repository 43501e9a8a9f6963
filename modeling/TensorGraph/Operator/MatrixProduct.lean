import TensorGraph.Facts.Elementwise
import TensorGraph.Tensor.Index

/-!
# Products of matrices

Products of stacks of matrices, whose batch dimensions are broadcast, and the scaled product of two
matrices with an added term.
-/

namespace TensorGraph

/-- The sum of the products of corresponding elements, in order, starting from zero. -/
def dotProduct {α : Type} [RingOps α] (count : Nat) (row column : Nat → α) : α :=
  (List.range count).foldl (fun sum i => RingOps.add sum (RingOps.mul (row i) (column i)))
    RingOps.zero

/-- The elements of a product of two matrices, row by row. -/
def matrixProduct {α : Type} [RingOps α] (m k n : Nat) (a b : Nat → Nat → α) : List α :=
  (List.range m).flatMap fun row => (List.range n).map fun column =>
    dotProduct k (a row) fun i => b i column

/-- The batch dimensions, rows and columns of a left factor.  A vector is a row. -/
def leftFactor {δ : Type} (one : δ) : List δ → Option (List δ × δ × δ)
  | [] => none
  | [n] => some ([], one, n)
  | [m, n] => some ([], m, n)
  | d :: rest => (leftFactor one rest).map fun (batch, m, n) => (d :: batch, m, n)

/-- The batch dimensions, rows and columns of a right factor.  A vector is a column. -/
def rightFactor {δ : Type} (one : δ) : List δ → Option (List δ × δ × δ)
  | [] => none
  | [n] => some ([], n, one)
  | [m, n] => some ([], m, n)
  | d :: rest => (rightFactor one rest).map fun (batch, m, n) => (d :: batch, m, n)

/-- The shape of a product.  The dimension that was added to a vector is left out. -/
def productShape {δ : Type} (a b batch : List δ) (m n : δ) : List δ :=
  batch ++ (if 1 < a.length then [m] else []) ++ (if 1 < b.length then [n] else [])

/-- The products of the matrices of two stacks. -/
def productAt (α : Type) [Element α] [Arith α] (a b : Tensor) : OpResult Tensor := do
  match leftFactor 1 a.shape, rightFactor 1 b.shape with
  | some (aBatch, m, k), some (bBatch, bk, n) =>
    let xs ← a.arrayOf α
    let ys ← b.arrayOf α
    if k ≠ bk then .error (.incompatibleShapes "matmul inner dims do not match")
    else
      let batch ← orFault (.incompatibleShapes "cannot broadcast batch dims")
        (broadcastShapes aBatch bBatch)
      let out := ((broadcastOffsets aBatch batch).zip (broadcastOffsets bBatch batch)).flatMap
        fun (i, j) => matrixProduct m k n
          (fun row column => xs.getD (i * (m * k) + row * k + column) default)
          (fun row column => ys.getD (j * (k * n) + row * n + column) default)
      return .ofArray (productShape a.shape b.shape batch m n) out.toArray
  | _, _ => .error (.invalidValue "matmul inputs must have at least one dim")

def runMatMul (inputs : Inputs) : OpResult Tensor := do
  let a ← inputs.require 0
  let b ← inputs.require 1
  if a.elementType ≠ b.elementType then .error .unsupportedType
  else a.elementType.dispatchNumeric fun α _ _ => productAt α a b

/-- Whether two dimensions are known to differ. -/
def Dim.conflicts : Dim → Dim → Bool
  | .fixed a, .fixed b => a != b
  | _, _ => false

/-- The dimensions of a product. -/
def productDims (a b : List Dim) : FactsResult (List Dim) :=
  match leftFactor (.fixed 1) a, rightFactor (.fixed 1) b with
  | some (aBatch, m, k), some (bBatch, bk, n) =>
    if k.conflicts bk then .error .incompatibleShapes
    else do return productShape a b (← broadcastDims aBatch bBatch) m n
  | _, _ => .error .rank

def inferMatMul (inputs : InputFacts) : FactsResult (List Facts) := do
  let a ← inputs.require 0
  let b ← inputs.require 1
  let shape ← match a.shape, b.shape with
    | some s, some t => (productDims s t).map some
    | _, _ => .ok none
  return [{ type := a.type.or b.type, shape := shape }]

/-- The product of two matrices, which may be transposed first, times `alpha`, plus a third matrix
times `beta`. -/
structure Gemm where
  alpha : Binary32 := .one
  beta : Binary32 := .one
  transposeA : Bool := false
  transposeB : Bool := false
  deriving DecidableEq, Repr

namespace Gemm

/-- The element of a stored matrix that stands at a row and a column, counted after transposing. -/
def entry {α : Type} [Inhabited α] (transposed : Bool) (columns : Nat) (xs : Array α)
    (row column : Nat) : α :=
  if transposed then xs.getD (column * columns + row) default
  else xs.getD (row * columns + column) default

/-- Multiply by a factor, unless it is 1. -/
def scaled {α : Type} [Element α] [Arith α] (factor : Binary32) (x : α) : α :=
  if factor.eq .one then x else RingOps.mul (Element.ofBinary64 factor.widen) x

/-- The elements of the added matrix, broadcast to the output. -/
def addend (α : Type) [Element α] (c : Tensor) (m n : Nat) : OpResult (List α) := do
  let xs ← c.arrayOf α
  if broadcastShapes c.shape [m, n] = some [m, n] then
    return (takeAt xs (broadcastOffsets c.shape [m, n])).toList
  else .error (.incompatibleShapes "cannot broadcast C to output")

def runAt (α : Type) [Element α] [Arith α] (g : Gemm) (a b : Tensor) (c : Option Tensor) :
    OpResult Tensor := do
  match a.shape, b.shape with
  | [aRows, aColumns], [bRows, bColumns] =>
    let xs ← a.arrayOf α
    let ys ← b.arrayOf α
    let (m, k) := if g.transposeA then (aColumns, aRows) else (aRows, aColumns)
    let (bk, n) := if g.transposeB then (bColumns, bRows) else (bRows, bColumns)
    if k ≠ bk then .error (.incompatibleShapes "gemm inner dims do not match")
    else
      let product := matrixProduct m k n (entry g.transposeA aColumns xs)
        (entry g.transposeB bColumns ys)
      let product := product.map (scaled g.alpha)
      let out ← match c with
        | none => .ok product
        | some c => do
          let added ← addend α c m n
          .ok ((product.zip added).map fun (x, y) => RingOps.add x (scaled g.beta y))
      return .ofArray [m, n] out.toArray
  | _, _ => .error (.invalidValue "gemm inputs must be matrices")

def run (g : Gemm) (inputs : Inputs) : OpResult Tensor := do
  let a ← inputs.require 0
  let b ← inputs.require 1
  a.elementType.dispatchNumeric fun α _ _ => g.runAt α a b (inputs.get? 2)

def infer (g : Gemm) (inputs : InputFacts) : FactsResult (List Facts) := do
  let a ← inputs.require 0
  let b ← inputs.require 1
  let shape ← match a.shape, b.shape with
    | some [aRows, aColumns], some [bRows, bColumns] =>
      let (m, k) := if g.transposeA then (aColumns, aRows) else (aRows, aColumns)
      let (bk, n) := if g.transposeB then (bColumns, bRows) else (bRows, bColumns)
      if k.conflicts bk then .error .incompatibleShapes else .ok [m, n]
    | some _, some _ => .error .rank
    | _, _ => .ok [.unknown, .unknown]
  return [{ type := a.type.or b.type, shape := some shape }]

end Gemm
end TensorGraph
