import TensorGraph.Simplification.Basic

/-!
# What the program writes

The help text, the table of operators before and after a simplification, and what else is said about
its result.
-/

namespace TensorGraph

/-- The lines of a text, each with its end. -/
def joinLines (lines : List String) : String := String.join (lines.map (· ++ "\n"))

/-- How to use the program. -/
def helpText : String :=
  joinLines
    ["Simplify ONNX models.",
      "",
      "Usage: onnxsim [OPTIONS] <input> <output>",
      "",
      "Options:",
      "  --check-n <N>",
      "    Number of random inputs used to check the simplified model [default: 3]",
      "",
      "  --dynamic-input-shape",
      "    Allow inputs with symbolic or unknown dimensions",
      "",
      "  --include-subgraph",
      "    Simplify subgraphs of control flow operators",
      "",
      "  --unused-output <name>",
      "    Remove an output of the model. May be repeated.",
      "",
      "  --skip-shape-inference",
      "  --skip-constant-folding",
      "  --skip-optimization",
      "    Disable shape inference, constant folding or all rewrite rules",
      "",
      "  --skip-rewrite <name>",
      "    Disable a rewrite rule. May be repeated. Rules are:",
      "    " ++ ", ".intercalate (Rule.all.map Rule.name),
      "",
      "  --overwrite-input-shape <name>:<d1>,<d2>...",
      "    Replace the shape of an input. May be repeated.",
      "",
      "  --dim <name>=<size>",
      "    Size of a symbolic dimension when checking the model. May be repeated.",
      "",
      "  --tensor-size-threshold <bytes>",
      "    Do not fold values larger than this",
      "",
      "  --max-iterations <N>",
      "    Maximum number of passes over each graph",
      "",
      "  -v, --verbose",
      "    Enable verbose logging",
      "",
      "  -h, --help",
      "    Print help",
      ""]

/-! The table of operators. -/

namespace OperatorTable

/-- Blanks that fill a text up to a width. -/
def padding (width : Nat) (s : String) : String :=
  String.ofList (List.replicate (width - s.length) ' ')

/-- A row of the table. -/
def row (width : Nat) (title before after : String) : String :=
  title ++ padding width title ++ "  " ++ padding 8 before ++ before ++ "  " ++
    padding 8 after ++ after

/-- The operators in both lists, each once, in ascending order. -/
def titles (before after : List String) : List String :=
  ((before ++ after).mergeSort (fun a b => decide (a ≤ b))).eraseDups

/-- A table of the operators in two lists, with their numbers. -/
def render (before after : List String) : String :=
  let ops := titles before after
  let width := (ops.map String.utf8ByteSize).foldl max 8
  joinLines
    (row width "Operator" "Before" "After" ::
      (ops.map fun op => row width op (toString (before.count op)) (toString (after.count op))) ++
      [row width "Total" (toString before.length) (toString after.length)])

end OperatorTable

namespace Simplified

/-- What is said about the nested graphs and the passes. -/
def remarks (s : Simplified) (o : Options) : List String :=
  s.report.unsimplified.map (fun u =>
    "Subgraph " ++ u.location ++ " was not fully simplified: " ++ u.obstacle.message) ++
  if s.report.limitReached then
    ["Graph was still changing after " ++ toString o.maxIterations ++ " passes"]
  else []

/-- What is said about the check of the model. -/
def verdict (s : Simplified) (o : Options) : String :=
  if o.samples = 0 then "Check skipped"
  else if s.passed then "Check passed"
  else "Check failed: simplified model outputs differ from the original"

/-- All that is written about a simplification. -/
def summary (s : Simplified) (o : Options) : String :=
  OperatorTable.render s.before.graph.opTypes s.model.graph.opTypes ++
    joinLines (s.remarks o ++ [s.verdict o])

end Simplified
end TensorGraph
