import WordC.Ty

/-!
# Types as text

A type is written `int` followed by its constructors from the inside out: `*` for a pointer, `[n]`
for an array of `n`, `()` for a function. So `int[3][2]` is an array of two arrays of three words,
and `int[3]*` points to one array of three.

* `Ty.text`: the written form of a type.
* `Ty.ofText?`: the type of a written form.
-/
namespace WordC.Ty

def text : Ty → String
  | int => "int"
  | ptr base => base.text ++ "*"
  | array base len => base.text ++ "[" ++ toString len ++ "]"
  | func ret => ret.text ++ "()"

/-- The number that one or more digits stand for. -/
def natural? (ds : List Char) : Option Nat :=
  if ds ≠ [] ∧ ds.all Char.isDigit then some (Nat.ofDigitChars 10 ds 0) else none

/-- The length that is written between two brackets: digits, and a minus sign in front of them if it
is negative. -/
def length? : List Char → Option Int
  | '-' :: ds => (natural? ds).map fun (n : Nat) => -(n : Int)
  | ds => (natural? ds).map fun (n : Nat) => (n : Int)

/-- Reads constructors to the end of the text and applies them to the type. The second argument
holds, last first, the characters of a length whose bracket is still open. -/
def extend? : Ty → Option (List Char) → List Char → Option Ty
  | ty, none, [] => some ty
  | ty, none, '*' :: cs => extend? (ptr ty) none cs
  | ty, none, '(' :: ')' :: cs => extend? (func ty) none cs
  | ty, none, '[' :: cs => extend? ty (some []) cs
  | ty, some ds, ']' :: cs =>
    match length? ds.reverse with
    | some len => extend? (array ty len) none cs
    | none => none
  | ty, some ds, c :: cs => extend? ty (some (c :: ds)) cs
  | _, _, _ => none

/-- The type that a text is the written form of. -/
def ofText? (s : String) : Option Ty :=
  match s.toList with
  | 'i' :: 'n' :: 't' :: cs => extend? int none cs
  | _ => none

end WordC.Ty
