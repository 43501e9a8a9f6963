import TensorGraph.Number.Binary32

/-!
# The error function

The error function by rational approximations on five intervals of the magnitude, in double and in
single precision.  Beyond 1.25 the result is a product of two exponentials; the exponential used
there reduces its argument by multiples of ln 2 and is a rational approximation too, so that every
result is fixed to the last bit by the arithmetic alone.
-/

namespace TensorGraph
namespace ErrorFunction

/-- The value at `x` of the polynomial whose coefficients are given from the constant one on. -/
def horner (coefficients : List Float) (x : Float) : Float :=
  match coefficients with
  | [] => 0.0
  | [c] => c
  | c :: rest => c + x * horner rest x

/-- The value at `x` of the polynomial whose coefficients are given from the constant one on. -/
def horner32 (coefficients : List Float32) (x : Float32) : Float32 :=
  match coefficients with
  | [] => 0.0
  | [c] => c
  | c :: rest => c + x * horner32 rest x

/-- Numerator for magnitudes below 0.84375. -/
def pp : List Float :=
  [1.28379167095512558561e-01, -3.25042107247001499370e-01, -2.84817495755985104766e-02,
   -5.77027029648944159157e-03, -2.37630166566501626084e-05]

/-- Denominator for magnitudes below 0.84375. -/
def qq : List Float :=
  [1.0, 3.97917223959155352819e-01, 6.50222499887672944485e-02, 5.08130628187576562776e-03,
   1.32494738004321644526e-04, -3.96022827877536812320e-06]

/-- Numerator for magnitudes from 0.84375 to 1.25. -/
def pa : List Float :=
  [-2.36211856075265944077e-03, 4.14856118683748331666e-01, -3.72207876035701323847e-01,
   3.18346619901161753674e-01, -1.10894694282396677476e-01, 3.54783043256182359371e-02,
   -2.16637559486879084300e-03]

/-- Denominator for magnitudes from 0.84375 to 1.25. -/
def qa : List Float :=
  [1.0, 1.06420880400844228286e-01, 5.40397917702171048937e-01, 7.18286544141962662868e-02,
   1.26171219808761642112e-01, 1.36370839120290507362e-02, 1.19844998467991074170e-02]

/-- Numerator for magnitudes from 1.25 to 1 / 0.35. -/
def ra : List Float :=
  [-9.86494403484714822705e-03, -6.93858572707181764372e-01, -1.05586262253232909814e+01,
   -6.23753324503260060396e+01, -1.62396669462573470355e+02, -1.84605092906711035994e+02,
   -8.12874355063065934246e+01, -9.81432934416914548592e+00]

/-- Denominator for magnitudes from 1.25 to 1 / 0.35. -/
def sa : List Float :=
  [1.0, 1.96512716674392571292e+01, 1.37657754143519042600e+02, 4.34565877475229228821e+02,
   6.45387271733267880336e+02, 4.29008140027567833386e+02, 1.08635005541779435134e+02,
   6.57024977031928170135e+00, -6.04244152148580987438e-02]

/-- Numerator for magnitudes from 1 / 0.35 to 6. -/
def rb : List Float :=
  [-9.86494292470009928597e-03, -7.99283237680523006574e-01, -1.77579549177547519889e+01,
   -1.60636384855821916062e+02, -6.37566443368389627722e+02, -1.02509513161107724954e+03,
   -4.83519191608651397019e+02]

/-- Denominator for magnitudes from 1 / 0.35 to 6. -/
def sb : List Float :=
  [1.0, 3.03380607434824582924e+01, 3.25792512996573918826e+02, 1.53672958608443695994e+03,
   3.19985821950859553908e+03, 2.55305040643316442583e+03, 4.74528541206955367215e+02,
   -2.24409524465858183362e+01]

/-- The value at 1, to single precision. -/
def erx : Float := 8.45062911510467529297e-01

/-- Eight times the slope at 0 less 1. -/
def efx8 : Float := 1.02703333676410069053e+00

/-- The exponential function for arguments of moderate size. -/
def exponential (x : Float) : Float :=
  let negative := x < 0.0
  let a := x.abs
  let half : Float := if negative then -0.5 else 0.5
  let coefficients : List Float :=
    [1.66666666666666019037e-01, -2.77777777770155933842e-03, 6.61375632143793436117e-05,
     -1.65339022054652515390e-06, 4.13813679705723846039e-08]
  let close (k : Int) (hi lo x : Float) : Float :=
    let xx := x * x
    let c := x - xx * horner coefficients xx
    let y := 1.0 + (x * c / (2.0 - c) - lo + hi)
    if k = 0 then y else y.scaleB k
  if 0x3fd62e42ffffffff < a.toBits then
    let k : Int :=
      if 0x3ff0a2b200000000 ≤ a.toBits then (1.44269504088896338700e+00 * x + half).toInt64.toInt
      else if negative then -1 else 1
    let kf := Float.ofInt k
    let hi := x - kf * 6.93147180369123816490e-01
    let lo := kf * 1.90821492927058770002e-10
    close k hi lo (hi - lo)
  else if 0x3e300000ffffffff < a.toBits then close 0 x 0.0 x
  else 1.0 + x

/-- One less the error function, for magnitudes from 0.84375 to 1.25. -/
def complementNearOne (x : Float) : Float :=
  let s := x.abs - 1.0
  1.0 - erx - horner pa s / horner qa s

/-- One less the error function of the magnitude, for magnitudes from 0.84375 to 6. -/
def complement (x : Float) : Float :=
  let a := x.abs
  if a.toBits < 0x3ff4000000000000 then complementNearOne x
  else
    let s := 1.0 / (a * a)
    let (r, t) :=
      if a.toBits < 0x4006db6d00000000 then (horner ra s, horner sa s)
      else (horner rb s, horner sb s)
    let z := Float.ofBits (a.toBits &&& 0xffffffff00000000)
    exponential (-z * z - 0.5625) * exponential ((z - a) * (z + a) + r / t) / a

/-- The error function in double precision. -/
def erf64 (x : Float) : Float :=
  let a := x.abs
  if 0x7ff0000000000000 ≤ a.toBits then (if x < 0.0 then -1.0 else 1.0) + 1.0 / x
  else if a.toBits < 0x3feb000000000000 then
    if a.toBits < 0x3e30000000000000 then 0.125 * (8.0 * x + efx8 * x)
    else
      let z := x * x
      x + x * (horner pp z / horner qq z)
  else
    let y :=
      if a.toBits < 0x4018000000000000 then 1.0 - complement x
      else 1.0 - Float.ofBits 0x0010000000000000
    if x < 0.0 then -y else y

/-- A list of coefficients in single precision. -/
def single (coefficients : List Float) : List Float32 := coefficients.map Float.toFloat32

/-- The exponential function for arguments of moderate size, in single precision. -/
def exponential32 (x : Float32) : Float32 :=
  let negative := x < 0.0
  let a := x.abs
  let half : Float32 := if negative then -0.5 else 0.5
  let close (k : Int) (hi lo x : Float32) : Float32 :=
    let xx := x * x
    let c := x - xx * (1.6666625440e-1 + xx * (-2.7667332906e-3 : Float32))
    let y := 1.0 + (x * c / (2.0 - c) - lo + hi)
    if k = 0 then y else y.scaleB k
  if 0x3eb17218 < a.toBits then
    let k : Int :=
      if 0x3f851592 < a.toBits then (1.4426950216e+00 * x + half).toInt32.toInt
      else if negative then -1 else 1
    let kf := Float32.ofInt k
    let hi := x - kf * 6.9314575195e-01
    let lo := kf * 1.4286067653e-06
    close k hi lo (hi - lo)
  else if 0x39000000 < a.toBits then close 0 x 0.0 x
  else 1.0 + x

/-- One less the error function of the magnitude, in single precision. -/
def complement32 (x : Float32) : Float32 :=
  let a := x.abs
  if a.toBits < 0x3fa00000 then
    let s := a - 1.0
    1.0 - erx.toFloat32 - horner32 (single pa) s / horner32 (single qa) s
  else
    let s := 1.0 / (a * a)
    let (r, t) :=
      if a.toBits < 0x4036db6d then (horner32 (single ra) s, horner32 (single sa) s)
      else (horner32 (single rb) s, horner32 (single sb) s)
    let z := Float32.ofBits (a.toBits &&& 0xffffe000)
    exponential32 (-z * z - 0.5625) * exponential32 ((z - a) * (z + a) + r / t) / a

/-- The error function in single precision. -/
def erf32 (x : Float32) : Float32 :=
  let a := x.abs
  if 0x7f800000 ≤ a.toBits then (if x < 0.0 then -1.0 else 1.0) + 1.0 / x
  else if a.toBits < 0x3f580000 then
    if a.toBits < 0x31800000 then 0.125 * (8.0 * x + efx8.toFloat32 * x)
    else
      let z := x * x
      x + x * (horner32 (single pp) z / horner32 (single qq) z)
  else
    let y :=
      if a.toBits < 0x40c00000 then 1.0 - complement32 x
      else 1.0 - Float32.ofBits 0x03800000
    if x < 0.0 then -y else y

end ErrorFunction

/-- The error function. -/
def Binary64.erf : Binary64 → Binary64 := .unary ErrorFunction.erf64

/-- The error function. -/
def Binary32.erf : Binary32 → Binary32 := .unary ErrorFunction.erf32

end TensorGraph
