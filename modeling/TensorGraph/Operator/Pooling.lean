import TensorGraph.Operator.Window

/-!
# Pooling

The largest element or the mean of the elements under a window, for each channel and each place of
the window.
-/

namespace TensorGraph

/-- For each place of a window, the offsets in a plane of the input positions under it, with `none`
for padding. -/
def windowOffsets (layout : List WindowAxis) (kernel : List Nat) : List (List (Option Nat)) :=
  let entries := indexes kernel
  (indexes (placeCounts layout)).map fun place =>
    entries.map fun entry => tapOffset? layout place entry 0

/-- Apply a function to each window of each plane of the input.  It gets the first position of the
plane and the offsets under the window. -/
def poolPlanes {β : Type} (w : Window) (shape : List Nat) (f : Nat → List (Option Nat) → β) :
    OpResult (List Nat × List β) := do
  let (samples, channels, sizes) ← splitChannels shape
  let layout ← w.layout sizes
  let windows := windowOffsets layout w.kernel
  let length := elementCount sizes
  return (samples :: channels :: placeCounts layout,
    (List.range (samples * channels)).flatMap fun plane => windows.map (f (plane * length)))

/-- The dimensions of a pooled input. -/
def pooledDims (w : Window) (input : Facts) : FactsResult (Option (List Dim)) :=
  match input.shape with
  | some (n :: c :: d :: dims) => do return some (n :: c :: (← w.outputDims (d :: dims)))
  | some _ => .error .rank
  | none => .ok none

/-- Pooling with the largest element.  The second output holds the positions of these elements. -/
structure MaxPool where
  window : Window
  deriving DecidableEq, Repr

namespace MaxPool

/-- The largest of some elements and its position.  The first of several equal ones counts; of no
elements it is negative infinity. -/
def largest {α : Type} [RealOps α] (xs : Array α) (positions : List Nat) : α × Option Nat :=
  let best := positions.foldl (fun (best : Option (α × Nat)) i =>
    let x := xs.getD i RingOps.zero
    match best with
    | some (y, j) => if Arith.le x y then some (y, j) else some (x, i)
    | none => some (x, i)) none
  match best with
  | some (x, i) => (x, some i)
  | none => (RealOps.ofBinary32 Binary32.negInfinity, none)

def runAt (α : Type) [Element α] [RealOps α] (p : MaxPool) (t : Tensor) :
    OpResult (Tensor × Tensor) := do
  let xs ← t.arrayOf α
  let (shape, out) ← poolPlanes p.window t.shape fun first offsets =>
    largest xs ((offsets.filterMap fun o => o).map (first + ·))
  let positions := out.map fun (_, i) =>
    match i with
    | some i => Int64.ofNat i
    | none => -1
  return (.ofArray shape (out.map Prod.fst).toArray, .ofArray shape positions.toArray)

def run (p : MaxPool) (inputs : Inputs) (outputs : Option Nat) : OpResult (List Tensor) := do
  let t ← inputs.require 0
  let (out, positions) ← t.elementType.dispatchReal fun α _ _ => p.runAt α t
  return if 1 < outputs.getD 1 then [out, positions] else [out]

def infer (p : MaxPool) (inputs : InputFacts) : FactsResult (List Facts) := do
  let input ← inputs.require 0
  let shape ← pooledDims p.window input
  return [{ type := input.type, shape := shape }, { type := some .int64, shape := shape }]

end MaxPool

/-- Pooling with the mean. -/
structure AveragePool where
  window : Window
  /-- Whether padding counts as zeros. -/
  countPadding : Bool := false
  deriving DecidableEq, Repr

/-- The quotient of a sum by a number of elements. -/
def meanOf {α : Type} [RealOps α] (sum : α) (count : Nat) : α :=
  RealOps.div sum (RealOps.ofBinary32 (.ofInt64 (.ofNat count)))

namespace AveragePool

/-- The mean of some elements, or zero if there are none. -/
def mean {α : Type} [RealOps α] (xs : Array α) (positions : List Nat) (count : Nat) : α :=
  let sum := positions.foldl (fun sum i => RingOps.add sum (xs.getD i RingOps.zero)) RingOps.zero
  if count = 0 then RingOps.zero else meanOf sum count

def runAt (α : Type) [Element α] [RealOps α] (p : AveragePool) (t : Tensor) : OpResult Tensor := do
  let xs ← t.arrayOf α
  let (shape, out) ← poolPlanes p.window t.shape fun first offsets =>
    let positions := (offsets.filterMap fun o => o).map (first + ·)
    mean xs positions (if p.countPadding then offsets.length else positions.length)
  return .ofArray shape out.toArray

def run (p : AveragePool) (inputs : Inputs) : OpResult Tensor := do
  let t ← inputs.require 0
  t.elementType.dispatchReal fun α _ _ => p.runAt α t

def infer (p : AveragePool) (inputs : InputFacts) : FactsResult (List Facts) := do
  let input ← inputs.require 0
  return [{ type := input.type, shape := ← pooledDims p.window input }]

end AveragePool

/-- The mean of each plane. -/
def globalAverage (α : Type) [Element α] [RealOps α] (t : Tensor) : OpResult Tensor := do
  let xs ← t.arrayOf α
  let (samples, channels, sizes) ← splitChannels t.shape
  let length := elementCount sizes
  let out := (List.range (samples * channels)).map fun plane =>
    let sum := (List.range length).foldl (fun sum i =>
      RingOps.add sum (xs.getD (plane * length + i) RingOps.zero)) RingOps.zero
    meanOf sum length
  return .ofArray (samples :: channels :: sizes.map fun _ => 1) out.toArray

def runGlobalAveragePool (inputs : Inputs) : OpResult Tensor := do
  let t ← inputs.require 0
  t.elementType.dispatchReal fun α _ _ => globalAverage α t

def inferGlobalAveragePool (inputs : InputFacts) : FactsResult (List Facts) := do
  let input ← inputs.require 0
  let shape ← match input.shape with
    | some (n :: c :: dims) => .ok (some (n :: c :: dims.map fun _ => Dim.fixed 1))
    | some _ => .error .rank
    | none => .ok none
  return [{ type := input.type, shape := shape }]

end TensorGraph
