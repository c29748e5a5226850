import WordC.Loc

/-!
# Diagnostics

A diagnostic is what a user reads about a source text: its kind, a position and a message. Only
warnings let a compilation go on. Diagnostics are kept in the order in which they were found.
-/
namespace WordC

namespace Diagnostic

inductive Kind where
  | lexical
  | syntactic
  | semantic
  | warning
  deriving DecidableEq, Repr

/-- Everything except a warning blocks emission. -/
def Kind.isFatal : Kind → Bool
  | warning => false
  | _ => true

/-- The word a reader sees for the kind. -/
def Kind.label (kind : Kind) : String := if kind.isFatal then "error" else "warning"

end Diagnostic

structure Diagnostic where
  kind : Diagnostic.Kind
  loc : Loc
  message : String
  deriving DecidableEq, Repr

namespace Diagnostic

def isFatal (d : Diagnostic) : Bool := d.kind.isFatal

/-- `row:col: label: message`. -/
def header (d : Diagnostic) : String :=
  d.loc.text ++ ": " ++ d.kind.label ++ ": " ++ d.message

end Diagnostic

/-! ## Lists of diagnostics -/

namespace Diagnostics

def errorCount (ds : List Diagnostic) : Nat := ds.countP Diagnostic.isFatal

def warningCount (ds : List Diagnostic) : Nat := ds.length - errorCount ds

def hasErrors (ds : List Diagnostic) : Bool := ds.any Diagnostic.isFatal

end Diagnostics

end WordC
