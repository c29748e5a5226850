import WordC.Compile

/-!
# The command line

The one argument is the source text itself. Diagnostics go to the error stream and the assembly to
the output.
-/
namespace WordC.CommandLine

/-- What a process writes and how it ends. -/
structure Exit where
  out : String
  err : String
  code : Nat
  deriving DecidableEq, Repr

/-- The exit code of a malformed command line. -/
def usageCode : Nat := 64

/-- The exit code after a fault. -/
def faultCode : UInt32 := 101

def usage (program : String) : String :=
  program ++ ": invalid number of arguments\n" ++ "usage: " ++ program ++ " <source>\n"

/-- Runs the compiler under the given program name. -/
def run (program : String) (args : List String) (color : Bool) : Except Fault Exit := do
  match args with
  | [source] =>
    let c ← compile source
    return ⟨c.assembly.getD "", Diagnostics.render c.diagnostics source color, c.exitCode⟩
  | _ => return ⟨"", usage program, usageCode⟩

end WordC.CommandLine
