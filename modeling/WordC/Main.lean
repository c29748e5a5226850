import WordC.CommandLine

/-!
# The program

The outer layer: arguments in, streams and exit code out. Diagnostics are colored if the error
stream is a terminal and `NO_COLOR` is not set.
-/

open WordC in
/-- Compiles the one argument. -/
def main (args : List String) : IO UInt32 := do
  let terminal ← (← IO.getStderr).isTty
  let plain := (← IO.getEnv "NO_COLOR").isSome
  match CommandLine.run "minic" args (terminal && !plain) with
  | .ok exit =>
    IO.eprint exit.err
    IO.print exit.out
    return exit.code.toUInt32
  | .error fault =>
    IO.eprintln (fault.message?.getD "internal error")
    return CommandLine.faultCode
