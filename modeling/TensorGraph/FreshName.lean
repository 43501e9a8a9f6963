/-!
# Fresh names

A name that is not taken is made from a stem and the least number that will do.
-/

namespace TensorGraph

/-- A name made from a stem that is not among the used names: the stem itself, or the stem with the
least number from 1 on. -/
def freshName (used : List String) (stem : String) : String :=
  if used.contains stem then
    let numbered := (List.range used.length).map fun k => stem ++ "_" ++ toString (k + 1)
    (numbered.find? fun name => !used.contains name).getD
      (stem ++ "_" ++ toString (used.length + 1))
  else stem

end TensorGraph
