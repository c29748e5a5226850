import WordC.Problem

/-!
# Function signatures and calls

A signature holds the parameter types of a function known by name. Each name has at most one: a
prototype never replaces it, a definition always does. Calls are checked against it by type, which
is a matter of caution, and by number, which is not.
-/
namespace WordC

/-- Parameter types of a function known by name. -/
structure Signature where
  params : List Ty
  /-- The function has a body; otherwise only prototypes were seen. -/
  defined : Bool
  deriving DecidableEq, Repr

/-- Signatures by function name, in the order in which the names first appeared. -/
structure Signatures where
  entries : List (String × Signature)
  deriving DecidableEq, Repr

namespace Signatures

def empty : Signatures := ⟨[]⟩

def count (t : Signatures) : Nat := t.entries.length

def find? (t : Signatures) (name : String) : Option Signature := t.entries.lookup name

def contains (t : Signatures) (name : String) : Bool := (t.find? name).isSome

/-- A function of this name has a body. -/
def isDefined (t : Signatures) (name : String) : Bool := (t.find? name).any (·.defined)

/-- Adds a name that has no signature yet; a known name keeps the one it has. -/
def declare (t : Signatures) (name : String) (params : List Ty) : Signatures :=
  if t.contains name then t else ⟨t.entries ++ [(name, ⟨params, false⟩)]⟩

/-- Gives a name the signature of its definition. -/
def define (t : Signatures) (name : String) (params : List Ty) : Signatures :=
  if t.contains name then
    ⟨t.entries.map fun e => if e.1 == name then (name, ⟨params, true⟩) else e⟩
  else ⟨t.entries ++ [(name, ⟨params, true⟩)]⟩

end Signatures

/-! ## Calls -/

/-- What is known of an argument when a call is checked. -/
structure Argument where
  ty : Ty
  loc : Loc
  deriving DecidableEq, Repr

/-- A call whose callee was not known where it was read. -/
structure PendingCall where
  callee : String
  args : List Argument
  loc : Loc
  deriving DecidableEq, Repr

namespace Argument

/-- A caution for each argument that is not compatible with its parameter, the first of them counted
as number `index`. -/
def mismatches (callee : String) : Nat → List Argument → List Ty → List Issue
  | index, arg :: args, param :: params =>
    if arg.ty.compatible param then mismatches callee (index + 1) args params
    else .caution arg.loc (.argumentMismatch index callee param arg.ty) ::
      mismatches callee (index + 1) args params
  | _, _, _ => []

/-- What is wrong with passing `args` where `params` are declared. -/
def countProblem? (callee : String) (args : List Argument) (params : List Ty) : Option Problem :=
  if args.length < params.length then some (.tooFewArguments callee)
  else if params.length < args.length then some (.tooManyArguments callee)
  else none

end Argument

/-- The issues of a call that had to wait until every signature was known. -/
def PendingCall.issues (table : Signatures) (c : PendingCall) : List Issue :=
  match table.find? c.callee with
  | none => [.caution c.loc (.implicitDeclaration c.callee)]
  | some signature =>
    Argument.mismatches c.callee 1 c.args signature.params ++
      ((Argument.countProblem? c.callee c.args signature.params).map
        fun problem => Issue.rejected ⟨c.loc, problem⟩).toList

end WordC
