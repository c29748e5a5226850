import WordC.Parse.State

/-!
# Declarators

A declarator is any number of `*`, a name, and any number of lengths in brackets. Lengths are read
from the left and apply from the right, so `a[2][3]` is an array of two arrays of three.
-/
namespace WordC.Parse

/-- Bytes a frame may take, so that every displacement in it fits a signed 32-bit field even after
the frame is aligned. -/
def maxFrame : Int := 2147483632

/-- The type and the tokens left after the `*`s in front. -/
def pointersFrom (ty : Ty) : List Token → Ty × List Token
  | [] => (ty, [])
  | t :: ts => if t.is "*" then pointersFrom (.ptr ty) ts else (ty, t :: ts)

namespace Parser

/-- Wraps `ty` into a pointer for each `*` read. -/
def pointers (ty : Ty) : Parser Ty where
  run s := .ok (pointersFrom ty s.rest).1 { s with rest := (pointersFrom ty s.rest).2 }

/-- The type of an array of `len` elements, `loc` being the place of the length. -/
def arrayOf (base : Ty) (len : Int) (loc : Loc) : Parser Ty := do
  let size ← ofFault base.size
  match Word.mul size len with
  | .ok _ => return .array base len
  | .error _ => reject loc .arrayTooLarge

/-- Reads lengths in brackets, at most `budget` of them. -/
def lengths : Nat → Ty → Parser Ty
  | 0, _ => fault .exhausted
  | budget + 1, ty => do
    if ← accept "[" then
      let loc ← here
      let len ← number
      expect "]"
      let element ← lengths budget ty
      arrayOf element len loc
    else
      return ty

/-- The type with the lengths that follow. -/
def suffixes (ty : Ty) : Parser Ty := do
  let s ← get
  lengths (s.rest.length + 1) ty

/-- Reads the type that every declaration starts with. -/
def typeName : Parser Ty := do
  expect "int"
  return .int

/-- A declared name and its type. -/
structure Declared where
  name : Name
  ty : Ty

/-- Reads a declarator over `base`. -/
def declarator (base : Ty) : Parser Declared := do
  let pointed ← pointers base
  let name ← identifier
  let ty ← suffixes pointed
  return ⟨name, ty⟩

/-- Gives a new local its place in the frame. -/
def declareLocal (name : Name) (ty : Ty) : Parser Local := do
  let scope := (← get).scope
  if (scope.find? name.text).isSome then
    reject name.loc (.redefinition name.text)
  else
    let size ← ofFault ty.size
    match Word.add scope.size size with
    | .error _ => reject name.loc .arrayTooLarge
    | .ok total =>
      if total ≤ maxFrame then
        let offset ← ofFault (Word.neg total)
        let v : Local := ⟨name.text, ty, offset⟩
        modify fun s => { s with scope := ⟨s.scope.locals ++ [v], total⟩ }
        return v
      else
        reject name.loc .arrayTooLarge

end Parser

end WordC.Parse
