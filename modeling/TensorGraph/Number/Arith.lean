import TensorGraph.Number.ErrorFunction

/-!
# Arithmetic of elements

The operations that the kernels use on elements, for machine integers and for floating-point
numbers.  Integers wrap around; dividing an integer by zero has no result.  Kernels that only add,
subtract and multiply ask for `RingOps`, so that they can also be run over any field.
-/

namespace TensorGraph

/-- Sums, differences and products of elements. -/
class RingOps (α : Type) where
  zero : α
  one : α
  add : α → α → α
  sub : α → α → α
  mul : α → α → α

/-- Arithmetic and order of numeric elements. -/
class Arith (α : Type) extends RingOps α where
  /-- The quotient, if there is one. -/
  div? : α → α → Option α
  /-- The remainder of a division that truncates, if there is one. -/
  rem? : α → α → Option α
  pow : α → α → α
  abs : α → α
  neg : α → α
  sign : α → α
  /-- The larger of two elements, or NaN if one of them is.  Of equal ones it is the second. -/
  max : α → α → α
  /-- The smaller of two elements, or NaN if one of them is.  Of equal ones it is the second. -/
  min : α → α → α
  eq : α → α → Bool
  lt : α → α → Bool
  le : α → α → Bool

/-- Floating-point elements. -/
class RealOps (α : Type) extends Arith α where
  div : α → α → α
  ofBinary32 : Binary32 → α
  exp : α → α
  ln : α → α
  sqrt : α → α
  tanh : α → α
  sin : α → α
  cos : α → α
  erf : α → α
  floor : α → α
  ceil : α → α
  /-- Round to the nearest integer; a number halfway between two goes to the even one. -/
  roundEven : α → α

/-- The remainder, with the sign of the dividend if `truncated` holds and else with that of the
divisor. -/
def Arith.modulo? {α : Type} [Arith α] (truncated : Bool) (x y : α) : Option α :=
  (rem? x y).map fun r =>
    if !truncated && !eq r RingOps.zero && lt r RingOps.zero != lt y RingOps.zero then
      RingOps.add r y
    else r

instance : Arith Binary32 where
  zero := .zero
  one := .one
  add := .add
  mul := .mul
  sub := .sub
  div? x y := some (x.div y)
  rem? x y := some (x.rem y)
  pow := .pow
  abs := .abs
  neg := .neg
  sign x :=
    if x.magnitude = 0 || x.isNaN then x else if x.isNegative then Binary32.one.neg else .one
  max x y := if x.isNaN || y.isNaN then .nan else if y.lt x then x else y
  min x y := if x.isNaN || y.isNaN then .nan else if x.lt y then x else y
  eq := Binary32.eq
  lt := Binary32.lt
  le := Binary32.le

instance : RealOps Binary32 where
  div := .div
  ofBinary32 x := x
  exp := .exp
  ln := .ln
  sqrt := .sqrt
  tanh := .tanh
  sin := .sin
  cos := .cos
  erf := .erf
  floor := .floor
  ceil := .ceil
  roundEven := .roundEven

instance : Arith Binary64 where
  zero := .zero
  one := .one
  add := .add
  mul := .mul
  sub := .sub
  div? x y := some (x.div y)
  rem? x y := some (x.rem y)
  pow := .pow
  abs := .abs
  neg := .neg
  sign x :=
    if x.magnitude = 0 || x.isNaN then x else if x.isNegative then Binary64.one.neg else .one
  max x y := if x.isNaN || y.isNaN then .nan else if y.lt x then x else y
  min x y := if x.isNaN || y.isNaN then .nan else if x.lt y then x else y
  eq := Binary64.eq
  lt := Binary64.lt
  le := Binary64.le

instance : RealOps Binary64 where
  div := .div
  ofBinary32 x := x.widen
  exp := .exp
  ln := .ln
  sqrt := .sqrt
  tanh := .tanh
  sin := .sin
  cos := .cos
  erf := .erf
  floor := .floor
  ceil := .ceil
  roundEven := .roundEven

instance : Arith Int64 where
  zero := 0
  one := 1
  add := (· + ·)
  mul := (· * ·)
  sub := (· - ·)
  div? x y := if y = 0 then none else some (x / y)
  rem? x y := if y = 0 then none else some (x % y)
  pow x y := ((Binary64.ofFloat x.toFloat).pow (.ofFloat y.toFloat)).toFloat.toInt64
  abs x := if x < 0 then 0 - x else x
  neg x := 0 - x
  sign x := if 0 < x then 1 else if x < 0 then -1 else 0
  max x y := if x ≤ y then y else x
  min x y := if x ≤ y then x else y
  eq x y := x == y
  lt x y := x < y
  le x y := x ≤ y

instance : Arith Int32 where
  zero := 0
  one := 1
  add := (· + ·)
  mul := (· * ·)
  sub := (· - ·)
  div? x y := if y = 0 then none else some (x / y)
  rem? x y := if y = 0 then none else some (x % y)
  pow x y := ((Binary64.ofFloat x.toFloat).pow (.ofFloat y.toFloat)).toFloat.toInt32
  abs x := if x < 0 then 0 - x else x
  neg x := 0 - x
  sign x := if 0 < x then 1 else if x < 0 then -1 else 0
  max x y := if x ≤ y then y else x
  min x y := if x ≤ y then x else y
  eq x y := x == y
  lt x y := x < y
  le x y := x ≤ y

instance : Arith Int8 where
  zero := 0
  one := 1
  add := (· + ·)
  mul := (· * ·)
  sub := (· - ·)
  div? x y := if y = 0 then none else some (x / y)
  rem? x y := if y = 0 then none else some (x % y)
  pow x y := ((Binary64.ofFloat x.toFloat).pow (.ofFloat y.toFloat)).toFloat.toInt8
  abs x := if x < 0 then 0 - x else x
  neg x := 0 - x
  sign x := if 0 < x then 1 else if x < 0 then -1 else 0
  max x y := if x ≤ y then y else x
  min x y := if x ≤ y then x else y
  eq x y := x == y
  lt x y := x < y
  le x y := x ≤ y

instance : Arith UInt8 where
  zero := 0
  one := 1
  add := (· + ·)
  mul := (· * ·)
  sub := (· - ·)
  div? x y := if y = 0 then none else some (x / y)
  rem? x y := if y = 0 then none else some (x % y)
  pow x y := ((Binary64.ofFloat x.toFloat).pow (.ofFloat y.toFloat)).toFloat.toUInt8
  abs x := x
  neg x := 0 - x
  sign x := if 0 < x then 1 else 0
  max x y := if x ≤ y then y else x
  min x y := if x ≤ y then x else y
  eq x y := x == y
  lt x y := x < y
  le x y := x ≤ y

end TensorGraph
