import WordC.Diagnostic
import WordC.Ty.Text

/-!
# What can be wrong with a source text

Every finding is kept as its cause; the wording is decided here and nowhere else.

* `LexicalProblem`: a piece of text that is no token.
* `Problem`: why a construct is rejected, by its grammar or by its meaning.
* `Caution`: a doubt that does not stop the compilation.
* `Rejection`: a problem with its place, which a reader returns instead of a result.
* `Issue`: any of the three as it is recorded.
* `Failure`: an error as the caller of the library sees it.
-/
namespace WordC

/-- The most parameters a function and arguments a call can have: one for each argument register. -/
def maxArgs : Nat := 6

/-! ## Causes -/

inductive LexicalProblem where
  /-- A run of digits whose value is no word. -/
  | numberTooLarge
  | unterminatedComment
  | strayCharacter (c : Char)
  deriving DecidableEq, Repr

def LexicalProblem.message : LexicalProblem → String
  | numberTooLarge => "invalid number: number too large to fit in target type"
  | unterminatedComment => "unterminated block comment"
  | strayCharacter c => "Unexpected character '" ++ c.toString ++ "'"

inductive Problem where
  | expectedToken (text found : String)
  | expectedNumber (found : String)
  | expectedIdentifier (found : String)
  | expectedExpression (found : String)
  /-- A number token that carries no value. -/
  | missingValue
  | notLvalue
  | invalidDereference
  /-- A sum of two pointers. -/
  | invalidSum
  /-- A pointer subtracted from an integer. -/
  | invalidDifference
  | undeclared (name : String)
  | redefinition (name : String)
  | arrayTooLarge
  | tooManyParameters (function : String)
  /-- More arguments than any function can take. -/
  | tooManyForCall (function : String)
  | tooFewArguments (function : String)
  | tooManyArguments (function : String)
  | globalInitializer
  deriving DecidableEq, Repr

namespace Problem

/-- The construct does not follow the grammar; otherwise its meaning is at fault. -/
def isSyntactic : Problem → Bool
  | expectedToken _ _ | expectedNumber _ | expectedIdentifier _ | expectedExpression _ => true
  | missingValue | notLvalue => true
  | _ => false

def message : Problem → String
  | expectedToken text found => "expected \"" ++ text ++ "\", but got \"" ++ found ++ "\""
  | expectedNumber found => "expected a number, but got \"" ++ found ++ "\""
  | expectedIdentifier found => "expected an identifier, but got \"" ++ found ++ "\""
  | expectedExpression found => "expected an expression, but got \"" ++ found ++ "\""
  | missingValue => "internal error: numeric token missing value"
  | notLvalue => "not an lvalue"
  | invalidDereference => "invalid pointer dereference"
  | invalidSum => "invalid operands to binary '+'"
  | invalidDifference => "invalid operands to binary '-'"
  | undeclared name => name ++ " undeclared"
  | redefinition name => "redefinition of '" ++ name ++ "'"
  | arrayTooLarge => "array is too large"
  | tooManyParameters f =>
    "too many parameters in '" ++ f ++ "' (at most " ++ toString maxArgs ++ " are supported)"
  | tooManyForCall f =>
    "too many arguments to function '" ++ f ++ "' (at most " ++ toString maxArgs ++
      " are supported)"
  | tooFewArguments f => "too few arguments to function '" ++ f ++ "'"
  | tooManyArguments f => "too many arguments to function '" ++ f ++ "'"
  | globalInitializer => "initializers for global variables are not supported"

end Problem

inductive Caution where
  /-- A call of a function that the whole text nowhere declares. -/
  | implicitDeclaration (function : String)
  /-- Argument `index`, counted from one, has another type than its parameter. -/
  | argumentMismatch (index : Nat) (function : String) (expected found : Ty)
  deriving DecidableEq, Repr

def Caution.message : Caution → String
  | implicitDeclaration f => "implicit declaration of function '" ++ f ++ "'"
  | argumentMismatch index f expected found =>
    "incompatible type for argument " ++ toString index ++ " of '" ++ f ++ "': expected '" ++
      expected.text ++ "', found '" ++ found.text ++ "'"

/-! ## Errors for callers -/

/-- An error returned by the library. -/
inductive Failure where
  | syntactic (loc : Loc) (message : String)
  | semantic (loc : Loc) (message : String)
  /-- A compilation that recorded this many errors. -/
  | aborted (errors : Nat)
  deriving DecidableEq, Repr

namespace Failure

def text : Failure → String
  | syntactic loc message => loc.text ++ ": " ++ message
  | semantic loc message => loc.text ++ ": " ++ message
  | aborted errors => "compilation aborted with " ++ toString errors ++ " error(s)"

/-- The diagnostic that records a failure. -/
def toDiagnostic : Failure → Diagnostic
  | syntactic loc message => ⟨.syntactic, loc, message⟩
  | semantic loc message => ⟨.semantic, loc, message⟩
  | aborted errors => ⟨.semantic, .nowhere, (aborted errors).text⟩

end Failure

/-! ## Findings with their place -/

/-- A construct that is refused: where and why. -/
structure Rejection where
  loc : Loc
  problem : Problem
  deriving DecidableEq, Repr

def Rejection.toFailure (r : Rejection) : Failure :=
  if r.problem.isSyntactic then .syntactic r.loc r.problem.message
  else .semantic r.loc r.problem.message

/-- A finding as it is recorded. -/
inductive Issue where
  | lexical (loc : Loc) (problem : LexicalProblem)
  | rejected (rejection : Rejection)
  | caution (loc : Loc) (caution : Caution)
  deriving DecidableEq, Repr

namespace Issue

def toDiagnostic : Issue → Diagnostic
  | lexical loc p => ⟨.lexical, loc, p.message⟩
  | rejected r => r.toFailure.toDiagnostic
  | caution loc c => ⟨.warning, loc, c.message⟩

/-- Only cautions let a compilation go on. -/
def isFatal : Issue → Bool
  | caution _ _ => false
  | _ => true

end Issue

/-- Why no tree is built: the text is at fault, or the computation. -/
inductive Stop where
  | rejected (rejection : Rejection)
  | faulted (fault : Fault)
  deriving DecidableEq, Repr

end WordC
