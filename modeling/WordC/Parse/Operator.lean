import WordC.Token
import WordC.Tree.Typing

/-!
# Binary operators as they are written

The ten written operators stand on four levels, from the loosest to the tightest; operators of one
level group to the left. A greater-than comparison is built as a less-than comparison of the
exchanged operands, and sums and differences follow pointer arithmetic.
-/
namespace WordC.Parse

/-- A written binary operator. -/
inductive Operator where
  | eq
  | ne
  | lt
  | le
  | gt
  | ge
  | add
  | sub
  | mul
  | div
  deriving DecidableEq, Repr

namespace Operator

def symbol : Operator → String
  | eq => "=="
  | ne => "!="
  | lt => "<"
  | le => "<="
  | gt => ">"
  | ge => ">="
  | add => "+"
  | sub => "-"
  | mul => "*"
  | div => "/"

/-- The tree of `lhs op rhs`, the operator standing at `loc`. -/
def build (op : Operator) (lhs rhs : Expr) (loc : Loc) : Except Stop Expr :=
  match op with
  | eq => .ok (.mkBinary .eq lhs rhs loc)
  | ne => .ok (.mkBinary .ne lhs rhs loc)
  | lt => .ok (.mkBinary .lt lhs rhs loc)
  | le => .ok (.mkBinary .le lhs rhs loc)
  | gt => .ok (.mkBinary .lt rhs lhs loc)
  | ge => .ok (.mkBinary .le rhs lhs loc)
  | add => Expr.plus lhs rhs loc
  | sub => Expr.minus lhs rhs loc
  | mul => .ok (.mkBinary .mul lhs rhs loc)
  | div => .ok (.mkBinary .div lhs rhs loc)

end Operator

/-- How tightly an operator binds. -/
inductive Level where
  | equality
  | relational
  | additive
  | multiplicative
  deriving DecidableEq, Repr

namespace Level

/-- The level of the operands, if they can be chains of operators again. -/
def tighter? : Level → Option Level
  | equality => some relational
  | relational => some additive
  | additive => some multiplicative
  | multiplicative => none

def operators : Level → List Operator
  | equality => [.eq, .ne]
  | relational => [.lt, .le, .gt, .ge]
  | additive => [.add, .sub]
  | multiplicative => [.mul, .div]

/-- The operator of this level that the token is. -/
def operator? (level : Level) (t : Token) : Option Operator :=
  level.operators.find? fun op => t.is op.symbol

end Level

end WordC.Parse
