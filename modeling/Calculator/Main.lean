import Calculator.CommandLine

/-!
# The program
-/

/-- Writes what a run on the arguments writes, and ends with its status. -/
def main (args : List String) : IO UInt32 := do
  let outcome := Calculator.CommandLine.run args
  (← IO.getStdout).putStr outcome.stdout
  (← IO.getStderr).putStr outcome.stderr
  return UInt32.ofNat outcome.code
