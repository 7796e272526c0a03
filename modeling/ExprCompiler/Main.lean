import ExprCompiler.Command

/-!
# The compiler as a program
-/

open ExprCompiler

/-- Compiles the argument and prints the listing, or an error. -/
def main (args : List String) : IO UInt32 := do
  let program ← IO.appPath
  let outcome := Command.execute (program.toString :: args)
  let stdout ← IO.getStdout
  let stderr ← IO.getStderr
  stdout.putStr outcome.stdout
  stderr.putStr outcome.stderr
  return outcome.exitCode.toUInt32
