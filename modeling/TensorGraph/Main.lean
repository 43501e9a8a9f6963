import TensorGraph.CommandLine.Program

/-!
# The command line

Runs the program on the files of the system.
-/

namespace TensorGraph

/-- The setting that limits the number of passes. -/
def iterationSetting : String := "ONNXSIM_MAX_ITERATIONS"

/-- The files of the system. -/
def systemFiles : Files IO where
  read path := do
    try
      let bytes ← IO.FS.readBinFile path
      return some bytes.toList
    catch _ => return none
  write path bytes := do
    try
      IO.FS.writeBinFile path (ByteArray.mk bytes.toArray)
      return true
    catch _ => return false

end TensorGraph

/-- Run the program. -/
def main (arguments : List String) : IO UInt32 := do
  let setting ← IO.getEnv TensorGraph.iterationSetting
  let outcome ← TensorGraph.runProgram TensorGraph.systemFiles setting arguments
  (← IO.getStderr).putStr outcome.errors
  (← IO.getStdout).putStr outcome.output
  return outcome.exitCode.toUInt32
