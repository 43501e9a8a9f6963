import TensorGraph.Evaluation.Plan

/-!
# Control flow

A branch runs one of two graphs.  A loop runs its body while a condition holds, at most as often as
a trip count says.  The body gets the number of the iteration, the condition, and the values that
the iteration before passed on.  It returns the next condition, the values that it passes on, and
values that are stacked over all iterations.
-/

namespace TensorGraph

/-- The truth value of a tensor with a single integer. -/
def conditionOf (t : Tensor) : OpResult Bool := do
  match ← t.intList with
  | [c] => return c ≠ 0
  | _ => .error (.invalidValue "condition must have one element")

/-- Stack tensors of equal shape along a new first axis. -/
def stackTensors (ts : List Tensor) : OpResult Tensor := do
  let rows ← ts.mapM fun t => reshapeOrFault t (1 :: t.shape)
  match rows with
  | [] => .error .missingInputs
  | first :: _ =>
    if rows.any fun t => t.elementType ≠ first.elementType then
      .error (.invalidValue "scan output has different types across iterations")
    else first.elementType.dispatch fun α _ => concatAt α 0 rows

/-- A stack of no tensors, by the declaration of one of them. -/
def emptyStack (declared : ValueInfo) : OpResult Tensor := do
  let sizes := declared.shape.bind Dim.sizes?
  match declared.type, sizes with
  | some type, some sizes => orFault .unsupportedType (Tensor.zeros? type (0 :: sizes))
  | _, _ =>
    .error (.unsupportedValue "scan output of loop with no iterations has unknown shape")

/-- Run one of two graphs, each of which is run by a given function. -/
def runBranch (n : Node) (runOnTrue runOnFalse : Unit → RunResult (List Tensor))
    (inputs : Inputs) : RunResult (List Tensor) := do
  let condition : OpResult Bool := do conditionOf (← inputs.require 0)
  if ← condition.mapError (.operator (n.name.getD "") "If") then runOnTrue () else runOnFalse ()

/-- What a loop is given. -/
structure LoopInputs where
  /-- The largest number of iterations, if there is one. -/
  trips : Option Int
  /-- The first condition, if there is one. -/
  condition : Option Bool
  carried : List Tensor
  deriving DecidableEq, Repr

namespace LoopInputs

/-- Read the inputs of a loop. -/
def ofInputs (inputs : Inputs) : OpResult LoopInputs := do
  let trips ← match inputs.get? 0 with
    | some t =>
      (fun v : Int64 => some v.toInt) <$>
        orFault (.invalidValue "trip count must be an int64 scalar") (t.item? Int64)
    | none => .ok none
  let condition ← match inputs.get? 1 with
    | some t => some <$> conditionOf t
    | none => .ok none
  if trips.isNone && condition.isNone then
    .error (.unsupportedValue "loop has neither a trip count nor a condition")
  else
    let carried ← (inputs.drop 2).mapM (orFault .missingInputs)
    return { trips := trips, condition := condition, carried := carried }

/-- The largest number of iterations.  Without a trip count it is the number of 64-bit integers that
can count them. -/
def maxTrips (inputs : LoopInputs) : Nat := (inputs.trips.map Int.toNat).getD (Int64.size / 2)

/-- Whether the body fits the values that are carried. -/
def fits (inputs : LoopInputs) (body : Graph) : Bool :=
  body.inputs.length == inputs.carried.length + 2 && inputs.carried.length < body.outputs.length

end LoopInputs

/-- Where a loop stands between two iterations. -/
structure LoopState where
  iteration : Nat := 0
  condition : Bool
  carried : List Tensor
  /-- The values to be stacked, a row for each iteration, the last one in front. -/
  rows : List (List Tensor) := []
  deriving DecidableEq, Repr

namespace LoopState

/-- The inputs of the next iteration, for the names of the body's inputs. -/
def bodyInputs (names : List String) (s : LoopState) : Scope Tensor :=
  Scope.ofBindings
    (names.zip (.scalar (Int64.ofNat s.iteration) :: .scalar s.condition :: s.carried))

/-- The state after an iteration, from the outputs of the body.  The condition changes only if the
loop was given one. -/
def next (conditional : Bool) (s : LoopState) : List Tensor → OpResult LoopState
  | [] => .error .missingInputs
  | first :: rest => do
    return {
      iteration := s.iteration + 1
      condition := ← if conditional then conditionOf first else .ok s.condition
      carried := rest.take s.carried.length
      rows := rest.drop s.carried.length :: s.rows }

/-- Run the body until the condition fails, at most a number of times. -/
def iterate (runBody : LoopState → RunResult (List Tensor)) (fault : OpFault → RunError)
    (conditional : Bool) : Nat → LoopState → RunResult LoopState
  | 0, s => .ok s
  | trips + 1, s =>
    if s.condition then do
      let outputs ← runBody s
      iterate runBody fault conditional trips (← (s.next conditional outputs).mapError fault)
    else .ok s

/-- The stack of the values at a position of the rows. -/
def stackAt (declared : ValueInfo) (s : LoopState) (i : Nat) : OpResult Tensor :=
  match s.rows with
  | [] => emptyStack declared
  | rows => stackTensors (rows.reverse.filterMap (·[i]?))

/-- The outputs of a loop: the values that the last iteration passed on, and the stacks. -/
def outputs (body : Graph) (s : LoopState) : OpResult (List Tensor) := do
  let scanned ← (body.outputs.drop (s.carried.length + 1)).zipIdx.mapM fun (declared, i) =>
    s.stackAt declared i
  return s.carried ++ scanned

end LoopState

/-- Run a loop whose body is run by a given function, once it is known that the body can be
planned.  A loop without a trip count ends when its condition fails; it has no result if 64-bit
integers cannot count its iterations. -/
def runLoop (version : Option Int64) (n : Node) (body : Graph)
    (runBody : Scope Tensor → RunResult (List Tensor)) (inputs : Inputs) :
    RunResult (List Tensor) := do
  let fault := RunError.operator (n.name.getD "") "Loop"
  let inputs ← (LoopInputs.ofInputs inputs).mapError fault
  if inputs.fits body then
    let _ ← body.plan version
    let start := { condition := inputs.condition.getD true, carried := inputs.carried }
    let final ← LoopState.iterate
      (fun s => runBody (s.bodyInputs (body.inputs.map ValueInfo.name)))
      fault inputs.condition.isSome inputs.maxTrips start
    if inputs.trips.isNone && final.condition then
      .error (fault (.unsupportedValue "iterations cannot be counted"))
    else (final.outputs body).mapError fault
  else
    .error (fault (.invalidValue "loop body signature does not match loop-carried values"))

end TensorGraph
