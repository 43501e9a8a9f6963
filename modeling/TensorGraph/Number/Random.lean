import TensorGraph.Number.Binary32

/-!
# Random numbers

A generator of random numbers whose state is a word of 64 bits.  A step adds a constant to the
state and mixes the state with the two halves of a product.
-/

namespace TensorGraph

/-- A generator of random numbers. -/
structure Generator where
  state : UInt64
  deriving DecidableEq, Repr

namespace Generator

/-- A random word, and the generator after it. -/
def word (g : Generator) : UInt64 × Generator :=
  let state := g.state + 0x2d358dccaa6c78a5
  let product := state.toNat * (state ^^^ 0x8bb84b93962eacc9).toNat
  (UInt64.ofNat product ^^^ UInt64.ofNat (product / UInt64.size), ⟨state⟩)

/-- A generator for something with a name, made from one for all things. -/
def forName (g : Generator) (name : String) : Generator :=
  name.toList.foldl (fun g c => ⟨g.word.1 + c.val.toUInt64⟩) g

/-- The states recur after this many steps. -/
def period : Nat := UInt64.size

/-- Draw until a test accepts, at most a number of times.  The last draw is the result if all fail.
-/
def drawUntil {α : Type} (accepts : α → Bool) (draw : Generator → α × Generator) :
    Nat → Generator → α × Generator
  | 0, g => draw g
  | tries + 1, g =>
    let (x, rest) := draw g
    if accepts x then (x, rest) else drawUntil accepts draw tries rest

/-- A double-precision number from 0 up to 1, without 1. -/
def binary64 (g : Generator) : Binary64 × Generator :=
  drawUntil (fun x => Binary64.lt x .one) (fun g =>
    let (w, rest) := g.word
    (.ofFloat ((w >>> 1).toFloat * Float.ofBits 0x3c00000000000000), rest)) period g

/-- A single-precision number from 0 up to 1, without 1. -/
def binary32 (g : Generator) : Binary32 × Generator :=
  drawUntil (fun x => Binary32.lt x .one) (fun g =>
    let (w, rest) := g.word
    (.ofFloat ((w >>> 1).toFloat32 * Float32.ofBits 0x20000000), rest)) period g

/-- A random truth value. -/
def bool (g : Generator) : Bool × Generator :=
  let (w, rest) := g.word
  (w.toUInt8 % 2 = 0, rest)

/-- The distance from 1 to the next single-precision number. -/
def epsilon : Binary32 := ⟨0x34000000⟩

/-- A normally distributed number, by the Box-Muller transform. -/
def normal (mean deviation : Binary32) (g : Generator) : Binary32 × Generator :=
  let (u, g) := drawUntil (fun u => Binary32.lt epsilon u) binary32 period g
  let (v, g) := binary32 g
  let minusTwo : Binary32 := ⟨0xc0000000⟩
  let fullTurn : Binary32 := ⟨0x40c90fdb⟩
  let radius := deviation.mul (minusTwo.mul u.ln).sqrt
  (((radius.mul (fullTurn.mul v).cos)).add mean, g)

/-- Several draws in a row. -/
def draws {α : Type} (draw : Generator → α × Generator) : Nat → Generator → List α × Generator
  | 0, g => ([], g)
  | n + 1, g =>
    let (x, g) := draw g
    let (xs, g) := draws draw n g
    (x :: xs, g)

end Generator
end TensorGraph
