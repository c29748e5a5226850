import WordC.Signature
import WordC.Token
import WordC.Tree

/-!
# Readers of tokens

A reader works on a `State`: the tokens still to be read, what was built and recorded so far, and
the scope of the function being read. It ends with a result, with a `Rejection` of the text, or with
a `Fault` of the computation. Rejections keep the state, so whoever called can record them and go
on; a fault ends the run.

* `State`, `Outcome`, `Parser`: the state, how a reader ends, and readers as a monad.
* `current`, `accept`, `expect`, `number`, `identifier`: reading one token. The end of the tokens is
  never passed.
* `attempt`, `report`: going on after a rejection.
-/
namespace WordC.Parse

/-- The locals of the function being read and the bytes they take. -/
structure Scope where
  locals : List Local
  size : Int
  deriving DecidableEq, Repr

namespace Scope

def empty : Scope := ⟨[], 0⟩

def find? (scope : Scope) (name : String) : Option Local :=
  scope.locals.find? (·.name == name)

end Scope

/-- Everything a reader reads and changes. -/
structure State where
  /-- The tokens still to be read, without an end mark. -/
  rest : List Token
  /-- Where the tokens end. -/
  stop : Loc
  issues : List Issue
  objects : List Object
  signatures : Signatures
  pending : List PendingCall
  scope : Scope
  deriving Repr

namespace State

/-- The next token; the end mark once all are read. -/
def current (s : State) : Token :=
  match s.rest with
  | t :: _ => t
  | [] => .endMark s.stop

/-- A global variable declared so far. -/
def global? (s : State) (name : String) : Option Global :=
  (s.objects.filterMap Object.global?).find? (·.name == name)

def isGlobal (s : State) (name : String) : Bool := (s.global? name).isSome

/-- What a name denotes: a local before a global. -/
def var? (s : State) (name : String) : Option Var :=
  match s.scope.find? name with
  | some v => some (.frame v)
  | none => (s.global? name).map .data

end State

/-- How a reader ends. -/
inductive Outcome (α : Type) where
  | ok (a : α) (s : State)
  | rejected (r : Rejection) (s : State)
  | faulted (f : Fault)

namespace Outcome

variable {α β : Type}

/-- Goes on with `k` after a result. -/
def andThen (o : Outcome α) (k : α → State → Outcome β) : Outcome β :=
  match o with
  | ok a s => k a s
  | rejected r s => rejected r s
  | faulted f => faulted f

@[simp] theorem andThen_ok (a : α) (s : State) (k : α → State → Outcome β) :
    (ok a s).andThen k = k a s := rfl

@[simp] theorem andThen_rejected (r : Rejection) (s : State) (k : α → State → Outcome β) :
    (rejected r s).andThen k = rejected r s := rfl

@[simp] theorem andThen_faulted (f : Fault) (k : α → State → Outcome β) :
    (faulted f).andThen k = faulted f := rfl

end Outcome

/-- A reader of tokens with results in `α`. -/
structure Parser (α : Type) where
  run : State → Outcome α

namespace Parser

variable {α β : Type}

instance : Monad Parser where
  pure a := ⟨fun s => .ok a s⟩
  bind p f := ⟨fun s => (p.run s).andThen fun a s' => (f a).run s'⟩

@[simp] theorem run_pure (a : α) (s : State) : (pure a : Parser α).run s = .ok a s := rfl

@[simp] theorem run_bind (p : Parser α) (f : α → Parser β) (s : State) :
    (p >>= f).run s = (p.run s).andThen fun a s' => (f a).run s' := rfl

/-! ## The state -/

def get : Parser State := ⟨fun s => .ok s s⟩

def modify (f : State → State) : Parser Unit := ⟨fun s => .ok () (f s)⟩

/-! ## Ending without a result -/

def rejectWith (r : Rejection) : Parser α := ⟨fun s => .rejected r s⟩

def reject (loc : Loc) (problem : Problem) : Parser α := rejectWith ⟨loc, problem⟩

def fault (f : Fault) : Parser α := ⟨fun _ => .faulted f⟩

def ofRejection : Except Rejection α → Parser α
  | .ok a => pure a
  | .error r => rejectWith r

def ofFault : Except Fault α → Parser α
  | .ok a => pure a
  | .error f => fault f

def ofStop : Except Stop α → Parser α
  | .ok a => pure a
  | .error (.rejected r) => rejectWith r
  | .error (.faulted f) => fault f

/-- Runs a reader and turns its rejection into a result. -/
def attempt (p : Parser α) : Parser (Except Rejection α) where
  run s :=
    match p.run s with
    | .ok a s' => .ok (.ok a) s'
    | .rejected r s' => .ok (.error r) s'
    | .faulted f => .faulted f

/-- Records issues in order. -/
def record (issues : List Issue) : Parser Unit :=
  modify fun s => { s with issues := s.issues ++ issues }

/-- Records a rejection. -/
def report (r : Rejection) : Parser Unit := record [.rejected r]

/-! ## Reading tokens -/

def current : Parser Token := ⟨fun s => .ok s.current s⟩

/-- The position of the next token. -/
def here : Parser Loc := ⟨fun s => .ok s.current.loc s⟩

/-- The next token is the punctuator or keyword `text`. -/
def sees (text : String) : Parser Bool := ⟨fun s => .ok (s.current.is text) s⟩

def atEnd : Parser Bool := ⟨fun s => .ok s.rest.isEmpty s⟩

/-- Goes past one token, if there is one. -/
def advance : Parser Unit := modify fun s => { s with rest := s.rest.tail }

/-- Goes past the punctuator or keyword `text` and says whether it was there. -/
def accept (text : String) : Parser Bool := do
  if ← sees text then
    advance
    return true
  else
    return false

/-- Goes past the punctuator or keyword `text`, which must be there. -/
def expect (text : String) : Parser Unit := do
  if ← accept text then
    return ()
  else
    let token ← current
    reject token.loc (.expectedToken text token.describe)

/-- Reads a number. -/
def number : Parser Int := do
  let token ← current
  if token.kind = .num then
    match token.value with
    | some value =>
      advance
      return value
    | none => reject token.loc .missingValue
  else
    reject token.loc (.expectedNumber token.describe)

/-- A name and where it stands. -/
structure Name where
  text : String
  loc : Loc

/-- Reads an identifier. -/
def identifier : Parser Name := do
  let token ← current
  if token.kind = .ident then
    advance
    return ⟨token.lexeme, token.loc⟩
  else
    reject token.loc (.expectedIdentifier token.describe)

end Parser

end WordC.Parse
