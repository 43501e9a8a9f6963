import TensorGraph.Text.Count

/-!
# Sizes on the command line

The size of a named dimension is given as `name=size`, and the shape of an input as
`name:size,size,...`.  Separators between double quotes are part of a name.
-/

namespace TensorGraph

/-- A piece of a specification. -/
inductive SpecToken where
  | separator (c : Char)
  | text (cs : List Char)
  deriving DecidableEq, Repr

namespace SpecToken

/-- Put a character in front of the text that comes first. -/
def consText (c : Char) : List SpecToken → List SpecToken
  | text cs :: rest => text (c :: cs) :: rest
  | tokens => text [c] :: tokens

/-- Split characters into separators and texts.  Double quotes are dropped, and between them there
are no separators. -/
def split (separators : List Char) : Bool → List Char → List SpecToken
  | _, [] => []
  | inQuotes, c :: rest =>
    if c = '"' then split separators (!inQuotes) rest
    else if !inQuotes && separators.contains c then
      separator c :: split separators inQuotes rest
    else consText c (split separators inQuotes rest)

end SpecToken

/-- What is wrong with a specification. -/
inductive SpecProblem where
  | notNameAndSize
  | notNameAndSizes
  | badSize
  deriving DecidableEq, Repr

/-- A specification that cannot be read. -/
structure SpecError where
  text : String
  problem : SpecProblem
  deriving DecidableEq, Repr

/-- The words that describe what is wrong with a specification. -/
def SpecError.message (e : SpecError) : String :=
  match e.problem with
  | .notNameAndSize => "invalid format for \"" ++ e.text ++ "\": expected <name>=<size>"
  | .notNameAndSizes =>
    "invalid format for \"" ++ e.text ++ "\": expected <name>:<dim>,<dim>,..."
  | .badSize =>
    "invalid dimension size in \"" ++ e.text ++ "\". Sizes must be non-negative integers."

/-- The size of a named dimension. -/
structure SizeSpec where
  name : String
  size : Nat
  deriving DecidableEq, Repr

/-- Read `name=size`. -/
def SizeSpec.read (s : String) : Except SpecError SizeSpec :=
  match SpecToken.split ['='] false s.toList with
  | [.text name, .separator '=', .text size] =>
    match readTrimmedCount? size with
    | some n => .ok ⟨String.ofList name, n⟩
    | none => .error ⟨s, .badSize⟩
  | _ => .error ⟨s, .notNameAndSize⟩

/-- The shape of an input. -/
structure ShapeSpec where
  name : String
  sizes : List Nat
  deriving DecidableEq, Repr

namespace ShapeSpec

/-- Read sizes, each of them after a comma. -/
def readMore? : List SpecToken → Option (List Nat)
  | [] => some []
  | .separator ',' :: .text size :: rest => do
    return (← readTrimmedCount? size) :: (← readMore? rest)
  | _ => none

/-- Read sizes that are separated by commas. -/
def readSizes? : List SpecToken → Option (List Nat)
  | [] => some []
  | .text size :: rest => do return (← readTrimmedCount? size) :: (← readMore? rest)
  | _ => none

/-- Read `name:size,size,...`.  There may be no size at all. -/
def read (s : String) : Except SpecError ShapeSpec :=
  match SpecToken.split [':', ','] false s.toList with
  | .text name :: .separator ':' :: rest =>
    match readSizes? rest with
    | some sizes => .ok ⟨String.ofList name, sizes⟩
    | none => .error ⟨s, .badSize⟩
  | _ => .error ⟨s, .notNameAndSizes⟩

end ShapeSpec
end TensorGraph
