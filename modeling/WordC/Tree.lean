import WordC.Loc
import WordC.Ty

/-!
# Program trees

Expressions carry their type and position on every node. Statements, functions and objects are built
from them; a program is its objects in the order of their declaration. A tree says nothing about
being well typed: the builders of `WordC.Tree.Typing` and the reader establish that.
-/
namespace WordC

/-! ## Variables -/

/-- A variable in the frame of its function; `offset` is its displacement from the frame base. -/
structure Local where
  name : String
  ty : Ty
  offset : Int
  deriving DecidableEq, Repr

/-- A variable with storage of its own. -/
structure Global where
  name : String
  ty : Ty
  deriving DecidableEq, Repr

/-- What a variable reference denotes. -/
inductive Var where
  | frame (v : Local)
  | data (v : Global)
  deriving DecidableEq, Repr

namespace Var

def name : Var → String
  | frame v => v.name
  | data v => v.name

def ty : Var → Ty
  | frame v => v.ty
  | data v => v.ty

end Var

/-! ## Expressions -/

inductive UnaryOp where
  | neg
  | addr
  | deref
  deriving DecidableEq, Repr

/-- Greater-than comparisons have no operator of their own: they are the lesser ones with exchanged
operands. -/
inductive BinaryOp where
  | add
  | sub
  | mul
  | div
  | eq
  | ne
  | lt
  | le
  deriving DecidableEq, Repr

def BinaryOp.isRelational : BinaryOp → Bool
  | eq | ne | lt | le => true
  | add | sub | mul | div => false

inductive Expr where
  | num (value : Int) (ty : Ty) (loc : Loc)
  | var (v : Var) (ty : Ty) (loc : Loc)
  | unary (op : UnaryOp) (operand : Expr) (ty : Ty) (loc : Loc)
  | binary (op : BinaryOp) (lhs rhs : Expr) (ty : Ty) (loc : Loc)
  | assign (lhs rhs : Expr) (ty : Ty) (loc : Loc)
  | call (callee : String) (args : List Expr) (ty : Ty) (loc : Loc)
  deriving Repr, Inhabited

namespace Expr

def ty : Expr → Ty
  | num _ ty _ => ty
  | var _ ty _ => ty
  | unary _ _ ty _ => ty
  | binary _ _ _ ty _ => ty
  | assign _ _ ty _ => ty
  | call _ _ ty _ => ty

def loc : Expr → Loc
  | num _ _ loc => loc
  | var _ _ loc => loc
  | unary _ _ _ loc => loc
  | binary _ _ _ _ loc => loc
  | assign _ _ _ loc => loc
  | call _ _ _ loc => loc

/-- Variables and dereferences denote storage. -/
def isLvalue : Expr → Bool
  | var _ _ _ => true
  | unary .deref _ _ _ => true
  | _ => false

end Expr

/-! ## Statements -/

inductive Stmt where
  /-- An expression evaluated for its effects; without one, nothing happens. -/
  | eval (expr : Option Expr)
  | ret (value : Option Expr)
  | block (stmts : List Stmt)
  | ite (cond : Expr) (onTrue : Stmt) (onFalse : Option Stmt)
  /-- `init` once; then, while `cond` is absent or non-zero, `body` and `step`. -/
  | loop (init : Option Stmt) (cond step : Option Expr) (body : Stmt)
  deriving Repr, Inhabited

/-! ## Objects -/

structure Function where
  name : String
  params : List Local
  /-- The function type, not the type of the result. -/
  ty : Ty
  /-- Every local in the order of declaration, the parameters first. -/
  locals : List Local
  body : Stmt
  /-- The sum of the sizes of the locals. -/
  stackSize : Int
  deriving Repr

def Function.arity (f : Function) : Nat := f.params.length

inductive Object where
  | global (v : Global)
  | function (f : Function)
  deriving Repr

namespace Object

def name : Object → String
  | global v => v.name
  | function f => f.name

def global? : Object → Option Global
  | global v => some v
  | function _ => none

def function? : Object → Option Function
  | function f => some f
  | global _ => none

end Object

/-- The objects of a source text in the order of their declaration. -/
structure Program where
  objects : List Object
  deriving Repr

namespace Program

def globals (p : Program) : List Global := p.objects.filterMap Object.global?

def functions (p : Program) : List Function := p.objects.filterMap Object.function?

/-- The first function of the given name. -/
def function? (p : Program) (name : String) : Option Function :=
  p.functions.find? (·.name == name)

end Program

end WordC
