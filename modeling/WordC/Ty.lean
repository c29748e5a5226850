import WordC.Word

/-!
# Types

A type is the word type `int`, a pointer, an array or a function. Words and pointers take eight
bytes. An array keeps its full size for storage, and is a pointer to its first element wherever a
value is wanted.

* `Ty.size`: bytes of storage, each product checked.
* `Ty.decay`: the type of a value read from a place of this type.
* `Ty.compatible`: pointers and arrays over compatible elements are interchangeable, and so are all
  functions.
-/
namespace WordC

inductive Ty where
  | int
  | ptr (base : Ty)
  | array (base : Ty) (len : Int)
  | func (ret : Ty)
  deriving DecidableEq, Repr, Inhabited

namespace Ty

/-- Pointers and arrays both take part in pointer arithmetic. -/
def isPointer : Ty → Bool
  | ptr _ => true
  | array _ _ => true
  | _ => false

def isArray : Ty → Bool
  | array _ _ => true
  | _ => false

/-- The pointee of a pointer or the element of an array. -/
def base? : Ty → Option Ty
  | ptr base => some base
  | array base _ => some base
  | _ => none

/-- An array becomes a pointer to its element; every other type stays as it is. -/
def decay : Ty → Ty
  | array base _ => ptr base
  | ty => ty

/-- Bytes of storage. -/
def size : Ty → Except Fault Int
  | int => .ok 8
  | ptr _ => .ok 8
  | array base len => do Word.mul (← base.size) len
  | func _ => .ok 0

/-- The bytes one step of a pointer of this type covers; 1 where there is nothing to point at. -/
def stride (ty : Ty) : Except Fault Int :=
  match ty.base? with
  | some base => base.size
  | none => .ok 1

/-- A value of one type may stand where the other is declared. Lengths of arrays and results of
functions are not looked at. -/
def compatible : Ty → Ty → Bool
  | int, int => true
  | func _, func _ => true
  | ptr a, ptr b => compatible a b
  | ptr a, array b _ => compatible a b
  | array a _, ptr b => compatible a b
  | array a _, array b _ => compatible a b
  | _, _ => false

end Ty

end WordC
