import TensorGraph.CommandLine.Specification
import TensorGraph.Simplification.Options
import TensorGraph.Text.Escape

/-!
# Arguments

The arguments of the program are options and two file names, in any order.  Long options take a
value after an equals sign or as the next argument; short options can be written together.  After
two hyphens all arguments are file names.  Arguments are read in order, so the first mistake
counts, and asking for help before it hides it.
-/

namespace TensorGraph

/-- What is wrong with the arguments. -/
inductive UsageError where
  | unknownOption (option : String)
  | missingValue (option : String)
  | unexpectedValue (option value : String)
  | badCount (text : String) (fault : CountFault)
  | badSpec (error : SpecError)
  | missingFile (role : String)
  deriving DecidableEq, Repr

/-- The words that describe what is wrong. -/
def UsageError.message : UsageError → String
  | unknownOption option => "invalid option '" ++ option ++ "'"
  | missingValue option => "missing argument for option '" ++ option ++ "'"
  | unexpectedValue option value =>
    "unexpected argument for option '" ++ option ++ "': " ++ escaped value
  | badCount text fault => "cannot parse argument " ++ escaped text ++ ": " ++ fault.message
  | badSpec error => error.message
  | missingFile role => "missing \x60<" ++ role ++ ">\x60 arg"

/-- What the arguments have said so far. -/
structure Arguments where
  files : List String := []
  options : Options
  verbose : Bool := false

/-- What an option does. -/
inductive OptionEffect where
  | help
  | flag (set : Arguments → Arguments)
  | valued (set : String → Arguments → Except UsageError Arguments)

namespace Arguments

/-- Change the options. -/
def update (a : Arguments) (change : Options → Options) : Arguments :=
  { a with options := change a.options }

/-- Write all notes. -/
def beVerbose (a : Arguments) : Arguments :=
  { a.update (fun o => { o with noteLevel := .info }) with verbose := true }

/-- Read the value of an option as a count. -/
def count (text : String) : Except UsageError Nat :=
  (readCount text.toList).mapError (.badCount text)

end Arguments

namespace OptionEffect

/-- An option that changes the options of the simplification. -/
def change (set : Options → Options) : OptionEffect := flag fun a => a.update set

/-- An option whose value is a count. -/
def counted (set : Nat → Options → Options) : OptionEffect :=
  valued fun text a => do return a.update (set (← Arguments.count text))

/-- An option whose value is a name. -/
def named (set : String → Options → Options) : OptionEffect :=
  valued fun text a => .ok (a.update (set text))

/-- Replace the shape of an input. -/
def inputShape : OptionEffect :=
  valued fun text a => do
    let spec ← (ShapeSpec.read text).mapError .badSpec
    return a.update fun o =>
      { o with inputShapes := o.inputShapes ++ [(spec.name, spec.sizes.map Dim.fixed)] }

/-- Give the size of a named dimension. -/
def dimSize : OptionEffect :=
  valued fun text a => do
    let spec ← (SizeSpec.read text).mapError .badSpec
    return a.update fun o => { o with dimSizes := Scope.bind o.dimSizes spec.name spec.size }

/-- The long options, without the two hyphens. -/
def ofLong? : String → Option OptionEffect
  | "check-n" => some (counted fun n o => { o with samples := n })
  | "dynamic-input-shape" => some (change fun o => { o with dynamicInputShape := true })
  | "include-subgraph" => some (change fun o => { o with includeSubgraph := true })
  | "unused-output" =>
    some (named fun name o => { o with unusedOutputs := o.unusedOutputs ++ [name] })
  | "skip-shape-inference" => some (change fun o => { o with skipShapeInference := true })
  | "skip-constant-folding" => some (change fun o => { o with skipConstantFolding := true })
  | "skip-optimization" => some (change fun o => { o with skipRules := true })
  | "skip-rewrite" =>
    some (named fun name o => { o with skippedRules := o.skippedRules ++ [name] })
  | "overwrite-input-shape" => some inputShape
  | "dim" => some dimSize
  | "tensor-size-threshold" => some (counted fun n o => { o with sizeThreshold := some n })
  | "max-iterations" => some (counted fun n o => { o with maxIterations := n })
  | "verbose" => some (flag Arguments.beVerbose)
  | "help" => some help
  | _ => none

/-- The short options. -/
def ofShort? : Char → Option OptionEffect
  | 'v' => some (flag Arguments.beVerbose)
  | 'h' => some help
  | _ => none

end OptionEffect

/-- What the program is asked to do. -/
inductive Command where
  | help
  | simplify (input output : String) (options : Options) (verbose : Bool)

namespace Command

/-- Add short options that are written together, behind the option that was read last.  Help ends
the reading. -/
def addShorts (last : Option Char) : List Char → Arguments → Except UsageError (Option Arguments)
  | [], a => .ok (some a)
  | c :: rest, a =>
    match last, c with
    | some previous, '=' =>
      .error (.unexpectedValue ("-" ++ previous.toString) (String.ofList rest))
    | _, _ =>
      match OptionEffect.ofShort? c with
      | some .help => .ok none
      | some (.flag set) => addShorts (some c) rest (set a)
      | some (.valued _) | none => .error (.unknownOption ("-" ++ c.toString))

/-- Read arguments.  Nothing is returned if help is asked for. -/
def readFrom (a : Arguments) : List String → Except UsageError (Option Arguments)
  | [] => .ok (some a)
  | arg :: rest =>
    match arg.toList with
    | ['-', '-'] => .ok (some { a with files := a.files ++ rest })
    | '-' :: '-' :: cs =>
      let name := String.ofList (cs.takeWhile (· ≠ '='))
      let value :=
        match cs.dropWhile (· ≠ '=') with
        | _ :: value => some (String.ofList value)
        | [] => none
      let option := "--" ++ name
      match OptionEffect.ofLong? name, value with
      | none, _ => .error (.unknownOption option)
      | some .help, _ => .ok none
      | some (.flag _), some value => .error (.unexpectedValue option value)
      | some (.flag set), none => readFrom (set a) rest
      | some (.valued set), some value => do readFrom (← set value a) rest
      | some (.valued set), none =>
        match rest with
        | value :: rest => do readFrom (← set value a) rest
        | [] => .error (.missingValue option)
    | '-' :: c :: cs => do
      match ← addShorts none (c :: cs) a with
      | some a => readFrom a rest
      | none => return none
    | _ => readFrom { a with files := a.files ++ [arg] } rest

/-- The number of samples when nothing else is said. -/
def defaultSamples : Nat := 3

/-- The command that arguments stand for.  A setting limits the passes if the arguments do not. -/
def ofArguments (setting : Option String) (arguments : List String) :
    Except UsageError Command := do
  let options : Options :=
    { samples := defaultSamples, maxIterations := Options.iterationLimit setting }
  match ← readFrom { options := options } arguments with
  | none => return .help
  | some a =>
    match a.files with
    | input :: output :: _ => return .simplify input output a.options a.verbose
    | [_] => .error (.missingFile "output")
    | [] => .error (.missingFile "input")

end Command
end TensorGraph
