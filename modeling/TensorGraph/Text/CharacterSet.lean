/-!
# Sets of characters

A set of characters is a list of ranges of code points, in increasing order.
-/

namespace TensorGraph

/-- A set of characters, as ranges of code points of which both ends are included. -/
structure CharacterSet where
  ranges : List (Nat × Nat)
  deriving DecidableEq, Repr

namespace CharacterSet

/-- Whether a character is in the set. -/
def contains (s : CharacterSet) (c : Char) : Bool :=
  s.ranges.any fun (first, last) => first ≤ c.toNat && c.toNat ≤ last

end CharacterSet
end TensorGraph
