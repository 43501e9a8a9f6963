import TensorGraph.Number.Binary64

/-!
# Single-precision numbers

A `Binary32` is a single-precision number given by its 32 bits.  It follows the same rules as
`Binary64`.  Widening is exact; narrowing rounds to the nearest number.
-/

namespace TensorGraph

/-- A single-precision number. -/
structure Binary32 where
  bits : UInt32
  deriving DecidableEq, Repr, Inhabited

namespace Binary32

/-- The number that a machine float holds. -/
def ofFloat (x : Float32) : Binary32 := ⟨x.toBits⟩

/-- The machine float for a number. -/
def toFloat (x : Binary32) : Float32 := Float32.ofBits x.bits

/-- The bits without the sign. -/
def magnitude (x : Binary32) : UInt32 := x.bits &&& 0x7fffffff

/-- Whether the sign bit is set. -/
def isNegative (x : Binary32) : Bool := x.bits != x.magnitude

/-- Whether the number is a NaN. -/
def isNaN (x : Binary32) : Bool := 0x7f800000 < x.magnitude

/-- The positive quiet NaN without payload. -/
def nan : Binary32 := ⟨0x7fc00000⟩

/-- The NaN of operations without a result. -/
def invalid : Binary32 := ⟨0xffc00000⟩

/-- A NaN with the quiet bit set. -/
def quiet (x : Binary32) : Binary32 := ⟨x.bits ||| 0x00400000⟩

/-- Whether the number is a NaN whose quiet bit is not set. -/
def isSignaling (x : Binary32) : Bool := x.isNaN && x.quiet != x

/-- A result that was computed, with the NaN of operations without a result. -/
def result (r : Float32) : Binary32 :=
  if (ofFloat r).isNaN then invalid else ofFloat r

/-- Apply a function of one number. -/
def unary (f : Float32 → Float32) (x : Binary32) : Binary32 :=
  if x.isNaN then x.quiet else result (f x.toFloat)

/-- Apply a function of two numbers.  The first NaN among them is the result. -/
def binary (f : Float32 → Float32 → Float32) (x y : Binary32) : Binary32 :=
  if x.isNaN then x.quiet else if y.isNaN then y.quiet else result (f x.toFloat y.toFloat)

def zero : Binary32 := ⟨0⟩

/-- Below all other numbers. -/
def negInfinity : Binary32 := ⟨0xff800000⟩

def one : Binary32 := ⟨0x3f800000⟩

def add : Binary32 → Binary32 → Binary32 := binary (· + ·)

def sub : Binary32 → Binary32 → Binary32 := binary (· - ·)

def mul : Binary32 → Binary32 → Binary32 := binary (· * ·)

def div : Binary32 → Binary32 → Binary32 := binary (· / ·)

/-- The number with the other sign. -/
def neg (x : Binary32) : Binary32 := ⟨x.bits ^^^ 0x80000000⟩

/-- The number without its sign. -/
def abs (x : Binary32) : Binary32 := ⟨x.magnitude⟩

/-- Equality of values: both zeros are equal, and a NaN equals nothing. -/
def eq (x y : Binary32) : Bool := x.toFloat == y.toFloat

def lt (x y : Binary32) : Bool := x.toFloat < y.toFloat

def le (x y : Binary32) : Bool := x.toFloat ≤ y.toFloat

/-- The bits without sign and exponent. -/
def fraction (x : Binary32) : UInt32 := x.bits &&& 0x007fffff

/-- The magnitude of a number in double precision that is not a NaN.  The numbers with exponent 0 are
the fractions times a power of two, and get an exponent for their highest bit. -/
def widenMagnitude (exponent fraction : UInt64) : UInt64 :=
  if exponent = 0xff then 0x7ff0000000000000
  else if exponent ≠ 0 then ((exponent + 896) <<< 52) + (fraction <<< 29)
  else if fraction = 0 then 0
  else ((fraction.log2 + 873) <<< 52) + (fraction <<< (52 - fraction.log2))

/-- The same number in double precision.  A NaN keeps its sign and payload and becomes quiet. -/
def widen (x : Binary32) : Binary64 :=
  let sign := (x.bits >>> 31).toUInt64 <<< 63
  let fraction := x.fraction.toUInt64
  if x.isNaN then
    let payload := fraction <<< 29
    ⟨sign ||| 0x7ff8000000000000 ||| payload⟩
  else ⟨sign + widenMagnitude (x.magnitude >>> 23).toUInt64 fraction⟩

/-- The nearest number in single precision.  A NaN keeps its sign and the high part of its payload
and becomes quiet. -/
def narrow (x : Binary64) : Binary32 :=
  if x.isNaN then
    let sign := (x.bits >>> 63).toUInt32 <<< 31
    let fraction := ((x.bits &&& 0x000fffffffffffff) >>> 29).toUInt32
    ⟨sign ||| 0x7fc00000 ||| fraction⟩
  else ofFloat x.toFloat.toFloat32

/-- The remainder of a division that truncates.  It has the sign of the dividend, and is exact. -/
def rem (x y : Binary32) : Binary32 := narrow (x.widen.rem y.widen)

/-- Round to the nearest integer; a number halfway between two goes to the even one. -/
def roundEven (x : Binary32) : Binary32 := if x.isNaN then x else narrow x.widen.roundEven

def exp : Binary32 → Binary32 := unary Float32.exp

def ln : Binary32 → Binary32 := unary Float32.log

def sqrt : Binary32 → Binary32 := unary Float32.sqrt

def tanh : Binary32 → Binary32 := unary Float32.tanh

def sin : Binary32 → Binary32 := unary Float32.sin

def cos : Binary32 → Binary32 := unary Float32.cos

/-- The largest integer that is not above the number. -/
def floor (x : Binary32) : Binary32 := if x.isNaN then x else ofFloat x.toFloat.floor

/-- The smallest integer that is not below the number. -/
def ceil (x : Binary32) : Binary32 := if x.isNaN then x else ofFloat x.toFloat.ceil

/-- A power.  Anything to the power zero and one to any power are one, also for a quiet NaN.  The
sign of a NaN that is raised to an odd power is cleared. -/
def pow (x y : Binary32) : Binary32 :=
  if y.magnitude = 0 then if x.isSignaling then x.quiet else one
  else if x = one then if y.isSignaling then y.quiet else one
  else if x.isNaN && y.widen.isOdd then x.quiet.abs
  else binary Float32.pow x y

/-- The nearest number to an integer. -/
def ofInt64 (v : Int64) : Binary32 :=
  if v < 0 then ofFloat (-(0 - v).toUInt64.toFloat32) else ofFloat v.toUInt64.toFloat32

/-- The integer part, held to the range of 64 bits; a NaN gives zero. -/
def toInt64 (x : Binary32) : Int64 := x.toFloat.toInt64

end Binary32
end TensorGraph
