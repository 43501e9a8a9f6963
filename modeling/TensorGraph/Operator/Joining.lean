import TensorGraph.Operator.Layout

/-!
# Joining and repeating tensors

Concatenation along an axis, and repetition along all axes.
-/

namespace TensorGraph

/-- Join tensors along an axis that their shapes have. -/
def concatAt (α : Type) [Element α] (axis : Nat) (ts : List Tensor) : OpResult Tensor := do
  match ts with
  | [] => .error .missingInputs
  | first :: _ =>
    if ts.all fun t => t.rank = first.rank && t.shape.eraseIdx axis = first.shape.eraseIdx axis then
      let shape := first.shape.set axis (ts.foldl (fun size t => size + t.shape.getD axis 0) 0)
      let parts ← ts.mapM fun t => do
        return ((← t.arrayOf α), elementCount (t.shape.drop axis))
      let outer := elementCount (first.shape.take axis)
      let out := (List.range outer).flatMap fun i =>
        parts.flatMap fun (xs, chunk) => (xs.extract (i * chunk) ((i + 1) * chunk)).toList
      return .ofArray shape out.toArray
    else
      .error (.incompatibleShapes "inputs must have the same shape except along the concat axis")

def runConcat (axis : Int) (inputs : Inputs) : OpResult Tensor := do
  match inputs.present with
  | [] => .error .missingInputs
  | first :: rest =>
    if rest.any fun t => t.elementType ≠ first.elementType then
      .error (.incompatibleShapes "inputs must have the same type")
    else
      let axis ← resolveAxis first.rank axis
      first.elementType.dispatch fun α _ => concatAt α axis (first :: rest)

/-- The dimension that several inputs share: a fixed one if there is one, else one that is known. -/
def sharedDim (dims : List Dim) : Dim :=
  match dims.find? Dim.isFixed with
  | some d => d
  | none => (dims.find? (· ≠ .unknown)).getD .unknown

/-- The sum of some dimensions. -/
def dimsSum (dims : List Dim) : Dim :=
  match dims.mapM Dim.expr? with
  | some sizes => .ofExpr (sizes.foldl SizeExpr.plus (.const 0))
  | none => .unknown

/-- The dimensions of joined tensors. -/
def concatDims (axis : Int) (shapes : List (List Dim)) : FactsResult (List Dim) := do
  let rank := (shapes.headD []).length
  if shapes.any fun s => s.length ≠ rank then .error .incompatibleShapes
  else
    let axis ← resolveFactsAxis rank axis
    return (List.range rank).map fun i =>
      let dims := shapes.map fun s => s.getD i .unknown
      if i = axis then dimsSum dims else sharedDim dims

def inferConcat (axis : Int) (inputs : InputFacts) : FactsResult (List Facts) := do
  let first ← inputs.require 0
  let present := inputs.filterMap fun x => x
  let shape ← match present.mapM Facts.shape with
    | some shapes => (concatDims axis shapes).map some
    | none => .ok (first.rank?.map fun n => List.replicate n Dim.unknown)
  let values :=
    match shape with
    | some [_] => (present.mapM Facts.values).map List.flatten
    | _ => none
  return [{ type := present.findSome? Facts.type, shape := shape, values := values }]

/-- The offset of the element that a repeated tensor has at an index. -/
def tileOffset : (shape steps index : List Nat) → Nat
  | n :: shape, step :: steps, i :: index => (i % n) * step + tileOffset shape steps index
  | _, _, _ => 0

def runTile (inputs : Inputs) : OpResult Tensor := do
  let t ← inputs.require 0
  let repeats ← toSizes (← inputs.requireInts 1)
  if repeats.length ≠ t.rank then
    .error (.invalidValue "repeats length must match input rank")
  else
    let shape := (t.shape.zip repeats).map fun (n, r) => n * r
    takeTensor t shape ((indexes shape).map (tileOffset t.shape (strides t.shape)))

def inferTile (inputs : InputFacts) : FactsResult (List Facts) := do
  let input ← inputs.require 0
  let repeats ← inputs.require 1
  let shape ← match input.shape, repeats.values with
    | some dims, some counts =>
      if dims.length ≠ counts.length then .error .incompatibleShapes
      else
        .ok (some ((dims.zip counts).map fun (d, r) =>
          match d.expr? with
          | some size => Dim.ofExpr (size.times r)
          | none => .unknown))
    | some dims, none => .ok (some (List.replicate dims.length Dim.unknown))
    | none, _ => .ok none
  return [{ type := input.type, shape := shape }]

end TensorGraph
