import WordC.Parse.Statement
import WordC.Token.Stream

/-!
# Reading a whole source text

* `function`: `"int" "*"* name "(" parameters? ")"`, and a body or a semicolon
* `globals`: `"int" (declarator ("," declarator)*)? ";"`
* `parse`: functions and global declarations to the end, then the calls that had to wait

A rejected declaration is recorded and skipped; everything that was read cleanly is kept.
-/
namespace WordC.Parse

/-- The tokens go on with a function and not with variables. -/
def startsFunction : List Token → Bool
  | t :: ts =>
    t.is "int" &&
      match ts.dropWhile (·.is "*") with
      | name :: paren :: _ => name.kind == .ident && paren.is "("
      | _ => false
  | [] => false

namespace Parser

/-! ## Functions -/

/-- Parameters up to the closing parenthesis; an array is passed as a pointer. -/
def parameters : Nat → Parser (List Local)
  | 0 => fault .exhausted
  | budget + 1 => do
    let base ← typeName
    let d ← declarator base
    let v ← declareLocal d.name d.ty.decay
    if ← accept ")" then
      return [v]
    else
      expect ","
      let more ← parameters budget
      return v :: more

/-- What stands in front of the body of a function. -/
structure Header where
  name : Name
  result : Ty
  params : List Local

def Header.paramTypes (h : Header) : List Ty := h.params.map (·.ty)

def header : Parser Header := do
  let base ← typeName
  let result ← pointers base
  let name ← identifier
  expect "("
  let s ← get
  let params ← if ← accept ")" then pure [] else parameters (s.rest.length + 1)
  if maxArgs < params.length then
    reject name.loc (.tooManyParameters name.text)
  else
    return ⟨name, result, params⟩

/-- A header without a body makes the function known. -/
def prototype (h : Header) : Parser Unit := do
  if (← get).isGlobal h.name.text then
    reject h.name.loc (.redefinition h.name.text)
  else
    modify fun s => { s with signatures := s.signatures.declare h.name.text h.paramTypes }

/-- Reads the body. The function is known inside it, so recursive calls are checked in place. -/
def definition (h : Header) : Parser Unit := do
  let s ← get
  if s.signatures.isDefined h.name.text || s.isGlobal h.name.text then
    reject h.name.loc (.redefinition h.name.text)
  else
    modify fun s => { s with signatures := s.signatures.define h.name.text h.paramTypes }
    expect "\x7b"
    let body ← block
    modify fun s =>
      { s with
        objects := s.objects ++
          [.function ⟨h.name.text, h.params, .func h.result, s.scope.locals, body, s.scope.size⟩] }

def function : Parser Unit := do
  let h ← header
  if ← accept ";" then
    prototype h
  else
    definition h

/-! ## Global variables -/

/-- Adds a global variable, whose name must be new. -/
def declareGlobal (d : Declared) : Parser Unit := do
  let s ← get
  if s.isGlobal d.name.text || s.signatures.contains d.name.text then
    reject d.name.loc (.redefinition d.name.text)
  else
    modify fun s => { s with objects := s.objects ++ [.global ⟨d.name.text, d.ty⟩] }

/-- The declarators of a global declaration over `base` up to the semicolon. -/
def globalDeclarators : Nat → Ty → Bool → Parser Unit
  | 0, _, _ => fault .exhausted
  | budget + 1, base, first => do
    if ← accept ";" then
      return ()
    else
      separator first
      let d ← declarator base
      if ← sees "=" then
        reject (← here) .globalInitializer
      else
        declareGlobal d
        globalDeclarators budget base false

def globals : Parser Unit := do
  let base ← typeName
  let s ← get
  globalDeclarators (s.rest.length + 1) base true

/-! ## The whole text -/

/-- Runs `p` and, if it is rejected, records that and goes on where `skip` says. -/
def recovering (p : Parser Unit) (skip : List Token → List Token → List Token) : Parser Unit := do
  let start := (← get).rest
  match ← attempt p with
  | .ok () => return ()
  | .error r =>
    report r
    modify fun s => { s with rest := skip start s.rest }

/-- Reads one function or global declaration, in a new scope. -/
def object : Parser Unit := do
  modify fun s => { s with scope := .empty }
  if startsFunction (← get).rest then
    recovering function skipFunction
  else
    recovering globals (resume startsObject)

/-- Reads objects to the end of the tokens. -/
def objects : Nat → Parser Unit
  | 0 => fault .exhausted
  | budget + 1 => do
    if ← atEnd then
      return ()
    else
      object
      objects budget

/-- Checks the calls whose callee was not known where they were read. -/
def settlePending : Parser Unit :=
  modify fun s =>
    { s with
      issues := s.issues ++ s.pending.flatMap (PendingCall.issues s.signatures)
      pending := [] }

/-- Reads everything. -/
def unit : Parser Unit := do
  let s ← get
  objects (s.rest.length + 1)
  settlePending

end Parser

/-- The state before the first of the given tokens. They end at their first end mark; without one
they end where the last of them stands. -/
def State.ofTokens (tokens : List Token) : State where
  rest := tokens.takeWhile (·.kind != .eof)
  stop :=
    match tokens.find? (·.kind == .eof) with
    | some mark => mark.loc
    | none => (tokens.getLast?.map (·.loc)).getD .nowhere
  issues := []
  objects := []
  signatures := .empty
  pending := []
  scope := .empty

/-- What reading a token list yields. -/
structure Parsed where
  program : Program
  /-- The functions known at the end. -/
  signatures : Signatures
  issues : List Issue

/-- Reads a token list. Only a fault leaves it without a result. -/
def parse (tokens : List Token) : Except Fault Parsed :=
  match Parser.unit.run (.ofTokens tokens) with
  | .ok _ s => .ok ⟨⟨s.objects⟩, s.signatures, s.issues⟩
  | .rejected _ s => .ok ⟨⟨s.objects⟩, s.signatures, s.issues⟩
  | .faulted f => .error f

end WordC.Parse
