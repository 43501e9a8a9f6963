import TensorGraph.Dimension.Simplify
import TensorGraph.Message.Basic

/-!
# Dimensions

A dimension has a fixed size, a size given by an expression, or a size that is not known.
-/

namespace TensorGraph

/-- The size of a dimension, as far as it is known. -/
inductive Dim where
  | fixed (size : Nat)
  | symbolic (size : SizeExpr)
  | unknown
  deriving DecidableEq, Repr, Inhabited

namespace Dim

/-- A dimension whose size has a name. -/
def named (name : String) : Dim := symbolic (.var name)

/-- The dimension whose size an expression gives.  A negative constant is no size. -/
def ofExpr (e : SizeExpr) : Dim :=
  match e.simplify with
  | .const v => if 0 ≤ v then fixed v.toNat else unknown
  | e => symbolic e

/-- The size as an expression, unless it is unknown. -/
def expr? : Dim → Option SizeExpr
  | fixed n => some (.const (wrap64 n))
  | symbolic e => some e
  | unknown => none

/-- The size, if it is fixed. -/
def size? : Dim → Option Nat
  | fixed n => some n
  | _ => none

def isFixed : Dim → Bool
  | fixed _ => true
  | _ => false

/-- The written form of a dimension. -/
def text : Dim → String
  | fixed n => toString n
  | symbolic e => e.text
  | unknown => "?"

/-- The sizes of a shape, if all of them are fixed. -/
def sizes? (shape : List Dim) : Option (List Nat) := shape.mapM size?

/-- Whether the dimension holds of an actual size when the names have the given values. -/
def Holds (σ : String → Int) (n : Nat) : Dim → Prop
  | fixed m => m = n
  | symbolic e => e.eval σ = n
  | unknown => True

/-- Whether each dimension of a shape holds of the actual size. -/
def AllHold (σ : String → Int) : List Dim → List Nat → Prop
  | [], [] => True
  | d :: ds, n :: ns => d.Holds σ n ∧ AllHold σ ds ns
  | _, _ => False

/-- Read a stored dimension. -/
def ofMessage (m : Message.Dimension) : Dim :=
  match m.value with
  | some v => if 0 ≤ v then fixed v.toInt.toNat else ofParam m.param
  | none => ofParam m.param
where
  /-- The dimension for a name, which must not be empty. -/
  ofParam : Option String → Dim
    | some p => if p.isEmpty then unknown else named p
    | none => unknown

/-- Store a dimension.  An expression is stored as its text. -/
def toMessage : Dim → Message.Dimension
  | fixed n => { value := some (.ofNat n) }
  | symbolic e => { param := some e.text }
  | unknown => {}

end Dim
end TensorGraph
