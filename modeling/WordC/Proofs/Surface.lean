import WordC.Parse.Expression

/-!
# Expressions as they are written

A surface expression has one node for each thing that is written, and no parentheses. It can be
printed, and it stands for a typed tree; neither of the two knows how expressions are read.

* `Surface`: the forms of the grammar. `Surface.rung` orders them: an assignment binds loosest, then
  equality, relational, additive and multiplicative operators, signs and `sizeof`, subscripts, and
  tightest what needs no operand at its margin.
* `Surface.print`: the tokens, with parentheses only around an operand that would otherwise be taken
  apart. Operators of a rung group to the left, assignments to the right.
* `Surface.tree`: the typed tree, built from the leaves up, with the names resolved in a state.
* `Token.unplaced`, `Expr.unplaced`: tokens and trees up to their positions. Building a tree and
  forgetting its positions can be exchanged.
-/
namespace WordC

/-! ## Forgetting positions -/

def Token.unplaced (t : Token) : Token := { t with loc := .nowhere }

@[simp] theorem Token.is_unplaced (t : Token) (text : String) : t.unplaced.is text = t.is text := rfl

namespace Expr

mutual

/-- The tree with all its nodes nowhere. -/
@[simp] def unplaced : Expr → Expr
  | num value ty _ => num value ty .nowhere
  | var v ty _ => var v ty .nowhere
  | unary op operand ty _ => unary op operand.unplaced ty .nowhere
  | binary op lhs rhs ty _ => binary op lhs.unplaced rhs.unplaced ty .nowhere
  | assign lhs rhs ty _ => assign lhs.unplaced rhs.unplaced ty .nowhere
  | call callee args ty _ => call callee (unplacedAll args) ty .nowhere

@[simp] def unplacedAll : List Expr → List Expr
  | [] => []
  | e :: es => e.unplaced :: unplacedAll es

end

theorem length_unplacedAll (es : List Expr) : (unplacedAll es).length = es.length := by
  induction es with
  | nil => rfl
  | cons e es ih => simp [unplacedAll, ih]

@[simp] theorem ty_unplaced (e : Expr) : e.unplaced.ty = e.ty := by
  cases e <;> simp [unplaced, ty]

@[simp] theorem isLvalue_unplaced (e : Expr) : e.unplaced.isLvalue = e.isLvalue := by
  cases e with
  | unary op operand ty loc => cases op <;> simp [unplaced, isLvalue]
  | num | var | binary | assign | call => simp [unplaced, isLvalue]

variable {ε : Type} (e lhs rhs : Expr) (loc : Loc)

@[simp] theorem unplaced_mkNum (value : Int) : (mkNum value loc).unplaced = mkNum value .nowhere := by
  simp [mkNum, unplaced]

@[simp] theorem unplaced_mkVar (v : Var) : (mkVar v loc).unplaced = mkVar v .nowhere := by
  simp [mkVar, unplaced]

@[simp] theorem unplaced_mkCall (callee : String) (args : List Expr) :
    (mkCall callee args loc).unplaced = mkCall callee (unplacedAll args) .nowhere := by
  simp [mkCall, unplaced]

@[simp] theorem unplaced_mkBinary (op : BinaryOp) :
    (mkBinary op lhs rhs loc).unplaced = mkBinary op lhs.unplaced rhs.unplaced .nowhere := by
  simp [mkBinary, unplaced]

/-- What is built, if anything, with all its nodes nowhere. -/
def built? (r : Except ε Expr) : Option Expr := r.toOption.map unplaced

theorem built?_eq_some {r : Except ε Expr} {e : Expr} (h : built? r = some e) :
    ∃ e', r = .ok e' ∧ e'.unplaced = e := by
  obtain ⟨e', he', rfl⟩ := Option.map_eq_some_iff.1 h
  cases r with
  | error x => cases he'
  | ok a => cases he'; exact ⟨_, rfl, rfl⟩

theorem built?_mkUnary (op : UnaryOp) :
    built? (mkUnary op e loc) = (mkUnary op e.unplaced .nowhere).toOption := by
  unfold mkUnary
  cases op with
  | neg | addr => simp [built?, Except.toOption, unplaced]
  | deref =>
    cases hbase : e.ty.base? <;> simp [built?, Except.toOption, unplaced, hbase]

theorem built?_mkAssign :
    built? (mkAssign lhs rhs loc) = (mkAssign lhs.unplaced rhs.unplaced .nowhere).toOption := by
  unfold mkAssign
  by_cases h : lhs.ty.isArray <;> simp [built?, Except.toOption, unplaced, h]

theorem built?_step (op : BinaryOp) :
    built? (step op lhs rhs loc) = (step op lhs.unplaced rhs.unplaced .nowhere).toOption := by
  unfold step scale
  cases h : lhs.ty.stride <;>
    simp [built?, Except.toOption, bind, Except.bind, pure, Except.pure, h]

theorem built?_distance :
    built? (distance lhs rhs loc) = (distance lhs.unplaced rhs.unplaced .nowhere).toOption := by
  unfold distance
  cases h : lhs.ty.stride <;> simp [built?, Except.toOption, unplaced, h]

theorem built?_plus :
    built? (plus lhs rhs loc) = (plus lhs.unplaced rhs.unplaced .nowhere).toOption := by
  have hstep := built?_step lhs rhs loc .add
  have hswap := built?_step rhs lhs loc .add
  unfold plus
  cases hl : lhs.ty.isPointer <;> cases hr : rhs.ty.isPointer <;> simp only [ty_unplaced, hl, hr]
  · simp [built?, Except.toOption]
  · exact hswap
  · exact hstep
  · simp [built?, Except.toOption]

theorem built?_minus :
    built? (minus lhs rhs loc) = (minus lhs.unplaced rhs.unplaced .nowhere).toOption := by
  have hstep := built?_step lhs rhs loc .sub
  have hdistance := built?_distance lhs rhs loc
  unfold minus
  cases hl : lhs.ty.isPointer <;> cases hr : rhs.ty.isPointer <;> simp only [ty_unplaced, hl, hr]
  · simp [built?, Except.toOption]
  · simp [built?, Except.toOption]
  · exact hstep
  · exact hdistance

end Expr

/-! ## Surface expressions -/

namespace Parse

/-- An expression as it is written, parentheses apart. -/
inductive Surface where
  | num (value : Int)
  | var (name : String)
  | call (callee : String) (args : List Surface)
  | subscript (base index : Surface)
  | sizeof (operand : Surface)
  /-- A sign that changes nothing. -/
  | plus (operand : Surface)
  | unary (op : UnaryOp) (operand : Surface)
  | binary (op : Operator) (lhs rhs : Surface)
  | assign (target value : Surface)

@[induction_eliminator]
theorem Surface.induct {motive : Surface → Prop}
    (num : ∀ value, motive (.num value))
    (var : ∀ name, motive (.var name))
    (call : ∀ callee args, (∀ arg ∈ args, motive arg) → motive (.call callee args))
    (subscript : ∀ base index, motive base → motive index → motive (.subscript base index))
    (sizeof : ∀ operand, motive operand → motive (.sizeof operand))
    (plus : ∀ operand, motive operand → motive (.plus operand))
    (unary : ∀ op operand, motive operand → motive (.unary op operand))
    (binary : ∀ op lhs rhs, motive lhs → motive rhs → motive (.binary op lhs rhs))
    (assign : ∀ target value, motive target → motive value → motive (.assign target value)) :
    ∀ e, motive e :=
  @Surface.rec motive (fun es => ∀ e ∈ es, motive e) num var call subscript sizeof plus unary binary
    assign (fun _ h => nomatch h) (fun _ _ hd tl => List.forall_mem_cons.2 ⟨hd, tl⟩)

/-! ## Printing -/

/-- How an operator is written, and its rung. -/
def Operator.written : Operator → String × Nat
  | eq => ("==", 1)
  | ne => ("!=", 1)
  | lt => ("<", 2)
  | le => ("<=", 2)
  | gt => (">", 2)
  | ge => (">=", 2)
  | add => ("+", 3)
  | sub => ("-", 3)
  | mul => ("*", 4)
  | div => ("/", 4)

/-- How an operator in front of its operand is written. -/
def signOf : UnaryOp → String
  | .neg => "-"
  | .addr => "&"
  | .deref => "*"

namespace Surface

/-- How tightly the form binds. -/
def rung : Surface → Nat
  | assign _ _ => 0
  | binary op _ _ => op.written.2
  | sizeof _ | plus _ | unary _ _ => 5
  | subscript _ _ => 6
  | num _ | var _ | call _ _ => 7

def mark (text : String) : Token := ⟨.punctuator, text, none, .nowhere⟩

def keyword (text : String) : Token := ⟨.keyword, text, none, .nowhere⟩

def ident (name : String) : Token := ⟨.ident, name, none, .nowhere⟩

def literal (value : Int) : Token := ⟨.num, toString value, some value, .nowhere⟩

/-- Tokens in parentheses. -/
def inParens (ts : List Token) : List Token := mark "(" :: (ts ++ [mark ")"])

/-- Tokens of the given rung, with parentheses if it is too loose for where they stand. -/
def atLeast (needed rung : Nat) (ts : List Token) : List Token :=
  if rung < needed then inParens ts else ts

mutual

/-- The tokens of an expression, with as few parentheses as can be. -/
def print : Surface → List Token
  | num value => [literal value]
  | var name => [ident name]
  | call callee args => ident callee :: mark "(" :: (printArgs args ++ [mark ")"])
  | subscript base index =>
    atLeast 6 base.rung base.print ++ mark "[" :: (index.print ++ [mark "]"])
  | sizeof operand => keyword "sizeof" :: atLeast 5 operand.rung operand.print
  | plus operand => mark "+" :: atLeast 5 operand.rung operand.print
  | unary op operand => mark (signOf op) :: atLeast 5 operand.rung operand.print
  | binary op lhs rhs =>
    atLeast op.written.2 lhs.rung lhs.print ++
      mark op.written.1 :: atLeast (op.written.2 + 1) rhs.rung rhs.print
  | assign target value => atLeast 1 target.rung target.print ++ mark "=" :: value.print

/-- Arguments with commas between them. -/
def printArgs : List Surface → List Token
  | [] => []
  | arg :: args => arg.print ++ if args.isEmpty then [] else mark "," :: printArgs args

end

end Surface

/-! ## Trees -/

/-- The tree of `lhs op rhs`. A greater-than comparison is a less-than comparison the other way
round. -/
def Operator.tree (op : Operator) (lhs rhs : Expr) : Option Expr :=
  match op with
  | eq => some (.mkBinary .eq lhs rhs .nowhere)
  | ne => some (.mkBinary .ne lhs rhs .nowhere)
  | lt => some (.mkBinary .lt lhs rhs .nowhere)
  | le => some (.mkBinary .le lhs rhs .nowhere)
  | gt => some (.mkBinary .lt rhs lhs .nowhere)
  | ge => some (.mkBinary .le rhs lhs .nowhere)
  | add => (Expr.plus lhs rhs .nowhere).toOption
  | sub => (Expr.minus lhs rhs .nowhere).toOption
  | mul => some (.mkBinary .mul lhs rhs .nowhere)
  | div => some (.mkBinary .div lhs rhs .nowhere)

theorem Operator.built?_build (op : Operator) (lhs rhs : Expr) (loc : Loc) :
    Expr.built? (op.build lhs rhs loc) = op.tree lhs.unplaced rhs.unplaced := by
  cases op with
  | add => exact Expr.built?_plus lhs rhs loc
  | sub => exact Expr.built?_minus lhs rhs loc
  | eq | ne | lt | le | gt | ge | mul | div =>
    simp [build, tree, Expr.built?, Except.toOption]

/-- So many arguments can be passed to the callee: it is not known, or has so many parameters. -/
def State.takes (s : State) (callee : String) (count : Nat) : Bool :=
  count ≤ maxArgs && (s.signatures.find? callee).all (·.params.length == count)

namespace Surface

mutual

/-- The typed tree, if there is one, with the names resolved in the given state. -/
def tree (s : State) : Surface → Option Expr
  | num value => some (.mkNum value .nowhere)
  | var name => (s.var? name).map (.mkVar · .nowhere)
  | call callee args => do
    let args ← trees s args
    if s.takes callee args.length then some (.mkCall callee args .nowhere) else none
  | subscript base index => do
    let base ← base.tree s
    let index ← index.tree s
    let address ← (Expr.plus base index .nowhere).toOption
    (Expr.mkUnary .deref address .nowhere).toOption
  | sizeof operand => do
    let operand ← operand.tree s
    let size ← operand.ty.size.toOption
    some (.mkNum size .nowhere)
  | plus operand => operand.tree s
  | unary op operand => do
    let operand ← operand.tree s
    if op = .addr ∧ operand.isLvalue = false then none
    else (Expr.mkUnary op operand .nowhere).toOption
  | binary op lhs rhs => do
    let lhs ← lhs.tree s
    let rhs ← rhs.tree s
    op.tree lhs rhs
  | assign target value => do
    let target ← target.tree s
    let value ← value.tree s
    if target.isLvalue then (Expr.mkAssign target value .nowhere).toOption else none

def trees (s : State) : List Surface → Option (List Expr)
  | [] => some []
  | e :: es => do
    let first ← e.tree s
    let more ← trees s es
    some (first :: more)

end

end Surface

end Parse

end WordC
