import WordC.Tree
import WordC.Problem

/-!
# Typed expression builders

Each builder derives the type of a node from its operands and refuses the node if there is none.

* A literal, a comparison and a call are of type `int`, a variable has its declared type.
* Arithmetic has the type of its left operand after decay; negation keeps the type of its operand.
* The address of an array points to its element, any other address to the type of the operand; only
  pointers and arrays can be dereferenced.
* An assignment has the type of its target, which must not be an array.

`Expr.plus` and `Expr.minus` are the sum and the difference as they are written in a source text: an
integer added to a pointer counts elements, and so does the difference of two pointers.
-/
namespace WordC.Expr

def mkNum (value : Int) (loc : Loc) : Expr := num value .int loc

def mkVar (v : Var) (loc : Loc) : Expr := var v v.ty loc

def mkCall (callee : String) (args : List Expr) (loc : Loc) : Expr := call callee args .int loc

/-- The type of the address of a place of type `ty`. -/
def addressTy : Ty → Ty
  | .array base _ => .ptr base
  | ty => .ptr ty

def mkUnary (op : UnaryOp) (operand : Expr) (loc : Loc) : Except Rejection Expr :=
  match op with
  | .neg => .ok (unary .neg operand operand.ty loc)
  | .addr => .ok (unary .addr operand (addressTy operand.ty) loc)
  | .deref =>
    match operand.ty.base? with
    | some base => .ok (unary .deref operand base loc)
    | none => .error ⟨loc, .invalidDereference⟩

def mkBinary (op : BinaryOp) (lhs rhs : Expr) (loc : Loc) : Expr :=
  binary op lhs rhs (if op.isRelational then .int else lhs.ty.decay) loc

def mkAssign (lhs rhs : Expr) (loc : Loc) : Except Rejection Expr :=
  if lhs.ty.isArray then .error ⟨lhs.loc, .notLvalue⟩ else .ok (assign lhs rhs lhs.ty loc)

/-! ## Pointer arithmetic -/

/-- `index` elements of what `pointer` points to, in bytes. -/
def scale (index : Expr) (pointer : Ty) (loc : Loc) : Except Fault Expr := do
  let size ← pointer.stride
  return mkBinary .mul index (mkNum size loc) loc

/-- `pointer op index`, counted in elements. -/
def step (op : BinaryOp) (pointer index : Expr) (loc : Loc) : Except Stop Expr :=
  match scale index pointer.ty loc with
  | .ok bytes => .ok (mkBinary op pointer bytes loc)
  | .error fault => .error (.faulted fault)

/-- The number of elements between two pointers, in elements of the left one. -/
def distance (lhs rhs : Expr) (loc : Loc) : Except Stop Expr :=
  match lhs.ty.stride with
  | .ok size => .ok (mkBinary .div (binary .sub lhs rhs .int loc) (mkNum size loc) loc)
  | .error fault => .error (.faulted fault)

/-- The sum of two operands. A pointer comes to the left of the integer added to it. -/
def plus (lhs rhs : Expr) (loc : Loc) : Except Stop Expr :=
  match lhs.ty.isPointer, rhs.ty.isPointer with
  | false, false => .ok (mkBinary .add lhs rhs loc)
  | true, false => step .add lhs rhs loc
  | false, true => step .add rhs lhs loc
  | true, true => .error (.rejected ⟨loc, .invalidSum⟩)

/-- The difference of two operands. -/
def minus (lhs rhs : Expr) (loc : Loc) : Except Stop Expr :=
  match lhs.ty.isPointer, rhs.ty.isPointer with
  | false, false => .ok (mkBinary .sub lhs rhs loc)
  | true, false => step .sub lhs rhs loc
  | true, true => distance lhs rhs loc
  | false, true => .error (.rejected ⟨loc, .invalidDifference⟩)

end WordC.Expr
