import TensorGraph.CommandLine.Arguments
import TensorGraph.CommandLine.Output

/-!
# The program

The program reads a model from a file, simplifies it, and writes it to another file.  It is the
same for all ways to read and write files.
-/

namespace TensorGraph

/-- How files are read and written.  Reading gives nothing, and writing gives `false`, if that is
not possible. -/
structure Files (m : Type → Type) where
  read : String → m (Option Wire.Bytes)
  write : String → Wire.Bytes → m Bool

/-- What the program leaves behind besides files. -/
structure Outcome where
  exitCode : Nat
  output : String
  errors : String
  deriving DecidableEq, Repr

namespace Outcome

/-- The outcome after an error, behind what was written before. -/
def failure (before text : String) : Outcome :=
  { exitCode := 1, output := "", errors := before ++ "Error: " ++ text ++ "\n" }

/-- The outcome after a simplification. -/
def ofSimplified (o : Options) (notes : String) (s : Simplified) : Outcome :=
  { exitCode := if s.passed then 0 else 1
    output := s.summary o
    errors := notes }

end Outcome

/-- Run the program with arguments. -/
def runProgram {m : Type → Type} [Monad m] (files : Files m) (setting : Option String)
    (arguments : List String) : m Outcome := do
  let fileError := "Os"
  match Command.ofArguments setting arguments with
  | .error e => return .failure "" e.message
  | .ok .help => return { exitCode := 0, output := helpText, errors := "" }
  | .ok (.simplify input output options verbose) =>
    match ← files.read input with
    | none => return .failure "" fileError
    | some bytes =>
      match simplify bytes options with
      | .error e => return .failure "" e.kind
      | .ok simplified =>
        let notes :=
          if verbose then joinLines ((simplified.notes options).map Note.message) else ""
        if ← files.write output simplified.model.serialize then
          return .ofSimplified options notes simplified
        else return .failure notes fileError

end TensorGraph
