import TensorGraph.Graph.Basic
import TensorGraph.Operator.Fault

/-!
# Facts about values

What is known about a tensor before a graph runs: its type, its dimensions and, for scalars and
vectors of integers, its elements.  `Facts.Holds` says when facts are true of a tensor.
-/

namespace TensorGraph

/-- What is known about a tensor. -/
structure Facts where
  type : Option ElementType := none
  /-- The dimensions, if the rank is known. -/
  shape : Option (List Dim) := none
  /-- The elements of a scalar or vector of integers, if they are known. -/
  values : Option (List SizeExpr) := none
  deriving DecidableEq, Repr, Inhabited

/-- Why nothing can be said about the outputs of an operator. -/
inductive FactsFault where
  | inputCount
  | incompatibleShapes
  | rank
  | invalidValue
  deriving DecidableEq, Repr

/-- The result of a rule. -/
abbrev FactsResult (α : Type) := Except FactsFault α

/-- The fault of a rule that stands for a fault of a kernel. -/
def FactsFault.ofOpFault : OpFault → FactsFault
  | .incompatibleShapes _ => .incompatibleShapes
  | .missingInputs => .inputCount
  | _ => .invalidValue

/-- Use the result of a computation that kernels and rules share. -/
def OpResult.toFacts {α : Type} (r : OpResult α) : FactsResult α := r.mapError .ofOpFault

namespace Facts

/-- Vectors with more elements are not tracked. -/
def maxTracked : Nat := 64

/-- A vector with known elements. -/
def ofValues (type : ElementType) (values : List SizeExpr) : Facts :=
  { type := some type, shape := some [.fixed values.length], values := some values }

/-- A scalar with a known element. -/
def ofScalar (type : ElementType) (value : SizeExpr) : Facts :=
  { type := some type, shape := some [], values := some [value] }

/-- The elements of a small tensor of integers without or with one dimension. -/
def trackedValues (t : Tensor) : Option (List SizeExpr) :=
  if t.rank ≤ 1 ∧ t.size ≤ maxTracked ∧ !t.elementType.isFloat then
    t.int64s?.map fun xs => xs.toList.map fun v => .const v.toInt
  else none

/-- All facts about a tensor. -/
def ofTensor (t : Tensor) : Facts :=
  { type := some t.elementType
    shape := some (t.shape.map Dim.fixed)
    values := trackedValues t }

/-- The facts that are declared of a value. -/
def ofValueInfo (v : ValueInfo) : Facts := { type := v.type, shape := v.shape }

def rank? (f : Facts) : Option Nat := f.shape.map List.length

/-- The shape, if all dimensions are fixed. -/
def sizes? (f : Facts) : Option (List Nat) := f.shape.bind Dim.sizes?

/-- The elements, if all of them are integers. -/
def integers? (f : Facts) : Option (List Int) := do (← f.values).mapM SizeExpr.constant?

/-- The elements as dimensions. -/
def dims? (f : Facts) : Option (List Dim) := f.values.map fun vs => vs.map Dim.ofExpr

/-- The facts without the elements. -/
def withoutValues (f : Facts) : Facts := { f with values := none }

/-- The facts that are common to two values. -/
def merge (a b : Facts) : Facts :=
  { type := if a.type = b.type then a.type else none
    shape :=
      match a.shape, b.shape with
      | some s, some t =>
        if s.length = t.length then
          some ((s.zip t).map fun (x, y) => if x = y then x else .unknown)
        else none
      | _, _ => none
    values := if a.values = b.values then a.values else none }

/-- Fill what is not known with what is declared. -/
def refine (f : Facts) (declared : ValueInfo) : Facts :=
  { f with
    type := f.type.or declared.type
    shape :=
      match f.shape, declared.shape with
      | some s, some d =>
        if s.length = d.length then
          some ((s.zip d).map fun (x, y) => if x = .unknown then y else x)
        else some s
      | some s, none => some s
      | none, d => d }

/-- Whether facts are true of a tensor when the names have the given values. -/
structure Holds (σ : String → Int) (f : Facts) (t : Tensor) : Prop where
  type_eq : ∀ type, f.type = some type → t.elementType = type
  shape_eq : ∀ dims, f.shape = some dims → Dim.AllHold σ dims t.shape
  values_eq : ∀ values, f.values = some values →
    t.int64s?.map (fun xs => xs.toList.map Int64.toInt) = some (values.map (SizeExpr.eval σ))

end Facts

/-- The facts about the inputs of an operator.  An omitted input is `none`. -/
abbrev InputFacts := List (Option Facts)

namespace InputFacts

/-- The facts about the input at a position, if it is there. -/
def get? (fs : InputFacts) (i : Nat) : Option Facts := (fs[i]?).join

/-- The facts about the input at a position. -/
def require (fs : InputFacts) (i : Nat) : FactsResult Facts :=
  match get? fs i with
  | some f => .ok f
  | none => .error .inputCount

end InputFacts

/-- The dimension that a possibly negative axis counts. -/
def resolveFactsAxis (rank : Nat) (axis : Int) : FactsResult Nat :=
  match resolveAxis? rank axis with
  | some i => .ok i
  | none => .error .invalidValue

end TensorGraph
