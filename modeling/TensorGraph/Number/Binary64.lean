/-!
# Double-precision numbers

A `Binary64` is a double-precision number given by its 64 bits, so that two numbers are equal
exactly when all their bits are.  In particular a NaN keeps its sign and payload while it is moved.
Arithmetic follows IEEE 754: an operation on a NaN gives that NaN made quiet, and an operation
without a result gives the quiet NaN with the sign bit set.  Rounding to an integer leaves a NaN as
it is.
-/

namespace TensorGraph

/-- A double-precision number. -/
structure Binary64 where
  bits : UInt64
  deriving DecidableEq, Repr, Inhabited

namespace Binary64

/-- The number that a machine float holds. -/
def ofFloat (x : Float) : Binary64 := ⟨x.toBits⟩

/-- The machine float for a number. -/
def toFloat (x : Binary64) : Float := Float.ofBits x.bits

/-- The bits without the sign. -/
def magnitude (x : Binary64) : UInt64 := x.bits &&& 0x7fffffffffffffff

/-- Whether the sign bit is set. -/
def isNegative (x : Binary64) : Bool := x.bits != x.magnitude

/-- Whether the number is a NaN. -/
def isNaN (x : Binary64) : Bool := 0x7ff0000000000000 < x.magnitude

/-- The positive quiet NaN without payload. -/
def nan : Binary64 := ⟨0x7ff8000000000000⟩

/-- The NaN of operations without a result. -/
def invalid : Binary64 := ⟨0xfff8000000000000⟩

/-- A NaN with the quiet bit set. -/
def quiet (x : Binary64) : Binary64 := ⟨x.bits ||| 0x0008000000000000⟩

/-- Whether the number is a NaN whose quiet bit is not set. -/
def isSignaling (x : Binary64) : Bool := x.isNaN && x.quiet != x

/-- A result that was computed, with the NaN of operations without a result. -/
def result (r : Float) : Binary64 :=
  if (ofFloat r).isNaN then invalid else ofFloat r

/-- Apply a function of one number. -/
def unary (f : Float → Float) (x : Binary64) : Binary64 :=
  if x.isNaN then x.quiet else result (f x.toFloat)

/-- Apply a function of two numbers.  The first NaN among them is the result. -/
def binary (f : Float → Float → Float) (x y : Binary64) : Binary64 :=
  if x.isNaN then x.quiet else if y.isNaN then y.quiet else result (f x.toFloat y.toFloat)

def zero : Binary64 := ⟨0⟩

def one : Binary64 := ⟨0x3ff0000000000000⟩

def add : Binary64 → Binary64 → Binary64 := binary (· + ·)

def sub : Binary64 → Binary64 → Binary64 := binary (· - ·)

def mul : Binary64 → Binary64 → Binary64 := binary (· * ·)

def div : Binary64 → Binary64 → Binary64 := binary (· / ·)

/-- The number with the other sign. -/
def neg (x : Binary64) : Binary64 := ⟨x.bits ^^^ 0x8000000000000000⟩

/-- The number without its sign. -/
def abs (x : Binary64) : Binary64 := ⟨x.magnitude⟩

/-- Equality of values: both zeros are equal, and a NaN equals nothing. -/
def eq (x y : Binary64) : Bool := x.toFloat == y.toFloat

def lt (x y : Binary64) : Bool := x.toFloat < y.toFloat

def le (x y : Binary64) : Bool := x.toFloat ≤ y.toFloat

/-- The exponent of the last bit of a finite number. -/
def lastExponent (x : Binary64) : Int :=
  let e := (x.magnitude >>> 52).toNat
  if e = 0 then -1074 else (e : Int) - 1075

/-- The integer that counts how often the last bit's weight goes into a finite number. -/
def mantissa (x : Binary64) : Nat :=
  let e := (x.magnitude >>> 52).toNat
  let fraction := (x.magnitude &&& 0x000fffffffffffff).toNat
  if e = 0 then fraction else fraction + 0x0010000000000000

/-- Whether the number is an odd integer. -/
def isOdd (x : Binary64) : Bool :=
  let places := (-x.lastExponent).toNat
  x.lastExponent ≤ 0 && (x.mantissa >>> places) % 2 == 1
    && x.mantissa >>> places <<< places == x.mantissa

/-- The remainder of a division that truncates.  It has the sign of the dividend, and is exact. -/
def rem (x y : Binary64) : Binary64 :=
  if x.isNaN then x.quiet
  else if y.isNaN then y.quiet
  else if x.magnitude = 0x7ff0000000000000 || y.magnitude = 0 then invalid
  else if y.magnitude = 0x7ff0000000000000 then x
  else
    let e := min x.lastExponent y.lastExponent
    let a := x.mantissa <<< (x.lastExponent - e).toNat
    let b := y.mantissa <<< (y.lastExponent - e).toNat
    let r := ofFloat ((Float.ofNat (a % b)).scaleB e)
    if x.isNegative then r.neg else r

/-- Round to the nearest integer; a number halfway between two goes to the even one. -/
def roundEven (x : Binary64) : Binary64 :=
  if 0x4330000000000000 ≤ x.magnitude then x
  else
    let shift : Float := 4503599627370496.0
    let r := ofFloat ((x.abs.toFloat + shift) - shift)
    if x.isNegative then r.neg else r

def exp : Binary64 → Binary64 := unary Float.exp

def ln : Binary64 → Binary64 := unary Float.log

def sqrt : Binary64 → Binary64 := unary Float.sqrt

def tanh : Binary64 → Binary64 := unary Float.tanh

def sin : Binary64 → Binary64 := unary Float.sin

def cos : Binary64 → Binary64 := unary Float.cos

/-- The largest integer that is not above the number. -/
def floor (x : Binary64) : Binary64 := if x.isNaN then x else ofFloat x.toFloat.floor

/-- The smallest integer that is not below the number. -/
def ceil (x : Binary64) : Binary64 := if x.isNaN then x else ofFloat x.toFloat.ceil

/-- A power.  Anything to the power zero and one to any power are one, also for a quiet NaN.  The
sign of a NaN that is raised to an odd power is cleared. -/
def pow (x y : Binary64) : Binary64 :=
  if y.magnitude = 0 then if x.isSignaling then x.quiet else one
  else if x = one then if y.isSignaling then y.quiet else one
  else if x.isNaN && y.isOdd then x.quiet.abs
  else binary Float.pow x y

/-- The nearest number to an integer. -/
def ofInt64 (v : Int64) : Binary64 :=
  if v < 0 then ofFloat (-(0 - v).toUInt64.toFloat) else ofFloat v.toUInt64.toFloat

/-- The integer part, held to the range of 64 bits; a NaN gives zero. -/
def toInt64 (x : Binary64) : Int64 := x.toFloat.toInt64

end Binary64
end TensorGraph
