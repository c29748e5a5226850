import WordC.Diagnostic.Render
import WordC.Emit.Program
import WordC.Parse.Objects

/-!
# Compiling a source text

The steps run one after another: tokens, objects, assembly. Errors in the characters stop before the
objects are read, and errors in the objects before anything is emitted; warnings never stop.

* `compile`: all of it, with the diagnostics and a log of the steps.
* `generateAssembly`: only the assembly, or the number of errors.
-/
namespace WordC

/-! ## The log -/

/-- A step of a compilation, as it is logged. -/
inductive Event where
  | tokenized (tokens : Nat)
  | parsed (objects signatures : Nat)
  | parsingFailed (errors : Nat)
  | emittingFunction (name : String) (params : Nat) (frame : Int)
  | emitted (bytes labels : Nat)
  deriving DecidableEq, Repr

namespace Event

inductive Level where
  | debug
  | trace
  deriving DecidableEq, Repr

/-- Only single functions are too much for the ordinary log. -/
def level : Event → Level
  | emittingFunction _ _ _ => .trace
  | _ => .debug

def text : Event → String
  | tokenized tokens => "tokenized " ++ toString tokens ++ " token(s)"
  | parsed objects signatures =>
    "parsed " ++ toString objects ++ " object(s), " ++ toString signatures ++ " signature(s)"
  | parsingFailed errors => "parsing failed with " ++ toString errors ++ " error(s)"
  | emittingFunction name params frame =>
    "function " ++ name ++ ": " ++ toString params ++ " param(s), " ++ toString frame ++
      " byte frame"
  | emitted bytes labels =>
    "emitted " ++ toString bytes ++ " bytes of assembly, " ++ toString labels ++ " label(s)"

end Event

/-! ## Compilations -/

/-- The outcome of compiling one source text. -/
structure Compilation where
  /-- There only if no error was recorded. -/
  assembly : Option String
  issues : List Issue
  log : List Event

namespace Compilation

def diagnostics (c : Compilation) : List Diagnostic := c.issues.map Issue.toDiagnostic

def succeeded (c : Compilation) : Bool := c.assembly.isSome

/-- The exit code of a process that ran this compilation. -/
def exitCode (c : Compilation) : Nat := if c.succeeded then 0 else 1

def errorCount (c : Compilation) : Nat := c.issues.countP Issue.isFatal

end Compilation

/-- Emits a program that was read without errors, `issues` being the cautions and `log` the steps so
far. -/
def finish (program : Program) (issues : List Issue) (log : List Event) :
    Except Fault Compilation := do
  let text := (← program.emit).text
  let functions := program.functions.map fun f => Event.emittingFunction f.name f.arity f.stackSize
  return ⟨some text, issues, log ++ functions ++ [.emitted text.utf8ByteSize program.labels]⟩

/-- Compiles a source text. Only a fault leaves it without an outcome. -/
def compile (source : String) : Except Fault Compilation := do
  let lexed := Source.tokenize source
  let log := [Event.tokenized lexed.tokens.length]
  if lexed.issues.any Issue.isFatal then
    return ⟨none, lexed.issues, log⟩
  else
    let parsed ← Parse.parse lexed.tokens
    let issues := lexed.issues ++ parsed.issues
    let log := log ++ [.parsed parsed.program.objects.length parsed.signatures.count]
    if issues.any Issue.isFatal then
      return ⟨none, issues, log ++ [.parsingFailed (issues.countP Issue.isFatal)]⟩
    else
      finish parsed.program issues log

/-- The assembly of a source text. -/
def generateAssembly (source : String) : Except Fault (Except Failure String) := do
  let c ← compile source
  match c.assembly with
  | some text => return .ok text
  | none => return .error (.aborted c.errorCount)

end WordC
