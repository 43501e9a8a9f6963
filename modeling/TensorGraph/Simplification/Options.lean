import TensorGraph.Dimension.Basic
import TensorGraph.Scope
import TensorGraph.Simplification.Note
import TensorGraph.Simplification.Rule
import TensorGraph.Tensor.Basic
import TensorGraph.Text.Count

/-!
# Options

What a simplification may do, and how its result is checked.
-/

namespace TensorGraph

/-- How far floating-point outputs may be apart: by `absolute`, and by `relative` times the expected
value. -/
structure Tolerance where
  relative : Binary64 := ⟨0x3f50624dd2f1a9fc⟩
  absolute : Binary64 := ⟨0x3f1a36e2eb1c432d⟩
  deriving DecidableEq, Repr

/-- The number of passes that are made when nothing else is said. -/
def defaultMaxIterations : Nat := 32

/-- The options of a simplification. -/
structure Options where
  /-- The number of random inputs on which the result is checked. -/
  samples : Nat := 0
  /-- Whether inputs may have dimensions without a fixed size. -/
  dynamicInputShape : Bool := false
  /-- Whether nested graphs are simplified. -/
  includeSubgraph : Bool := false
  /-- The outputs to remove before simplifying. -/
  unusedOutputs : List String := []
  skipShapeInference : Bool := false
  /-- The tensors to use for some inputs when comparing. -/
  customTensors : Scope Tensor := []
  skipConstantFolding : Bool := false
  /-- Whether all rules are switched off. -/
  skipRules : Bool := false
  /-- The names of the rules that are switched off. -/
  skippedRules : List String := []
  /-- The shapes to use for some inputs. -/
  inputShapes : List (String × List Dim) := []
  /-- The largest number of bytes of a computed constant. -/
  sizeThreshold : Option Nat := none
  /-- The largest number of passes over a graph. -/
  maxIterations : Nat := defaultMaxIterations
  tolerance : Tolerance := {}
  /-- The sizes of named dimensions when comparing.  All others have size 1. -/
  dimSizes : Scope Nat := []
  noteLevel : NoteLevel := .warn
  deriving DecidableEq, Repr

/-- What is wrong with an option. -/
inductive OptionFault where
  | noIterations
  | unknownRule (name : String)
  | negativeTolerance
  | shapeNotFixed (input : String)
  | notAnInput (name : String)
  | inputNotDeclared (input : String)
  | noSamples (type : ElementType) (input : String)
  deriving DecidableEq, Repr

/-- The words that describe what is wrong. -/
def OptionFault.message : OptionFault → String
  | noIterations => "max_iterations must be at least 1"
  | unknownRule name => "unknown rewrite " ++ quoted name
  | negativeTolerance => "check tolerances must be non-negative"
  | shapeNotFixed input => "shape for input " ++ quoted input ++ " must have fixed sizes"
  | notAnInput name =>
    "cannot overwrite shape of " ++ quoted name ++ " because it is not a graph input"
  | inputNotDeclared input =>
    "input " ++ quoted input ++
      " has unknown type or rank, so a value must be given to check it"
  | noSamples type input =>
    "cannot generate values of type " ++ type.schemaName ++ " for input " ++ quoted input

namespace Options

/-- The number of passes for the text of a setting.  A text that is no count is ignored. -/
def iterationLimit (setting : Option String) : Nat :=
  (setting.bind fun s => readTrimmedCount? s.toList).getD defaultMaxIterations

/-- Check the options that are wrong for every model. -/
def validate (o : Options) : Except OptionFault Unit :=
  if o.maxIterations = 0 then .error .noIterations
  else
    match o.skippedRules.find? fun name => !(Rule.all.map Rule.name).contains name with
    | some name => .error (.unknownRule name)
    | none =>
      if !(Binary64.le .zero o.tolerance.relative && Binary64.le .zero o.tolerance.absolute) then
        .error .negativeTolerance
      else
        match o.inputShapes.find? fun (_, dims) => dims.any fun d => !d.isFixed with
        | some (name, _) => .error (.shapeNotFixed name)
        | none => .ok ()

/-- Whether a rule is switched on. -/
def isEnabled (o : Options) (r : Rule) : Bool :=
  !o.skipRules && !o.skippedRules.contains r.name

/-- The rules that are switched on, in order. -/
def rules (o : Options) : List Rule := Rule.all.filter o.isEnabled

end Options
end TensorGraph
