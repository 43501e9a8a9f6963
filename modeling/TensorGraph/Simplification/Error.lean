import TensorGraph.Evaluation.Plan
import TensorGraph.Model
import TensorGraph.Simplification.Options

/-!
# Errors and reports

Why a model cannot be simplified, and what is reported about a simplification besides its result.
The report goes on when the simplification of a nested graph fails.
-/

namespace TensorGraph

/-- Why a model cannot be simplified. -/
inductive SimplifyError where
  | load (error : LoadError)
  | unknownOutput (name : String)
  | dynamicInput (name : String)
  | invalidOption (fault : OptionFault)
  | run (error : RunError)
  deriving DecidableEq, Repr

/-- The words that describe why a model cannot be simplified. -/
def SimplifyError.message : SimplifyError → String
  | load error => error.message
  | unknownOutput name => "output " ++ quoted name ++ " does not exist in the graph"
  | dynamicInput name =>
    "input " ++ quoted name ++
      " has a dynamic shape; enable dynamic input shapes or overwrite the input shape"
  | invalidOption fault => "invalid option: " ++ fault.message
  | run error => "graph execution failed: " ++ error.message

namespace SimplifyError

def malformed (m : Malformation) : SimplifyError := load (.malformed m)

def cyclic (c : Cycle) : SimplifyError := load (.cyclic c)

/-- The kind of an error. -/
def kind : SimplifyError → String
  | load (.decode _) => "Decode"
  | load (.malformed _) => "MalformedGraph"
  | load (.cyclic _) => "CyclicGraph"
  | load (.unsupportedVersion _ _) => "UnsupportedOpset"
  | unknownOutput _ => "UnknownOutputName"
  | dynamicInput _ => "DynamicInputShape"
  | invalidOption _ => "InvalidOption"
  | run _ => "Run"

end SimplifyError

/-- Why a nested graph is not simplified, or may still be simplified further. -/
inductive Obstacle where
  /-- It is a branch, and the condition is not a constant. -/
  | unknownCondition
  /-- It is left as it was. -/
  | failure (error : SimplifyError)
  deriving DecidableEq, Repr

/-- The words that describe an obstacle. -/
def Obstacle.message : Obstacle → String
  | unknownCondition => "branch condition is not a constant"
  | failure error => error.message

/-- A nested graph that is not fully simplified. -/
structure Unsimplified where
  /-- The path of the nested graph. -/
  location : String
  obstacle : Obstacle
  deriving DecidableEq, Repr

/-- What is reported about a simplification. -/
structure Report where
  /-- All notes in order. -/
  notes : List Note := []
  /-- Whether a graph still changed when the largest number of passes was reached. -/
  limitReached : Bool := false
  unsimplified : List Unsimplified := []
  deriving DecidableEq, Repr

namespace Report

def addNotes (r : Report) (notes : List Note) : Report := { r with notes := r.notes ++ notes }

def addUnsimplified (r : Report) (u : Unsimplified) : Report :=
  { r with unsimplified := r.unsimplified ++ [u] }

end Report

/-- A computation that may fail, and that reports in either case. -/
abbrev Simplifying := ExceptT SimplifyError (StateM Report)

namespace Simplifying

/-- Use a result that may be an error. -/
def ofExcept {ε α : Type} (error : ε → SimplifyError) (r : Except ε α) : Simplifying α :=
  match r with
  | .ok x => pure x
  | .error e => throw (error e)

/-- Sort a graph. -/
def sorted (g : Graph) : Simplifying Graph := ofExcept .cyclic g.sortTopologically

/-- Report notes. -/
def addNotes (notes : List Note) : Simplifying Unit := modify fun r => r.addNotes notes

end Simplifying
end TensorGraph
