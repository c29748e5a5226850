import Mathlib.Data.Stream.Init
import WordC.Problem
import WordC.Proofs.Machine
import WordC.Tree

/-!
# What expressions mean

An evaluator of expressions that knows nothing of code. Words wrap around at 64 bits. A binary
operator takes its right operand first; an assignment takes the address of its target, then the
value, and has the value as its own; a call takes its arguments from left to right. The value of a
place is the word stored there, or the address itself if the place is an array.

Undefined are a division by zero, a division that overflows, and touching a word that is not the
program's own.

A callee reads six argument registers, however many of them the call sets. What the others hold is
not a matter of the expression: the evaluator takes it from a supply of `spare` words. So an
expression is `Defined` if it has a value whatever these words are, and `Yields` the values that it
can have.
-/
namespace WordC

/-- One for true, zero for false. -/
def Quad.ofBool (b : Bool) : Quad := if b then 1#64 else 0#64

/-- The result of an operation on two words. -/
def BinaryOp.apply : BinaryOp → Quad → Quad → Option Quad
  | add, x, y => some (x + y)
  | sub, x, y => some (x - y)
  | mul, x, y => some (x * y)
  | div, x, y => if y = 0#64 ∨ (x = BitVec.intMin 64 ∧ y = -1#64) then none else some (x.sdiv y)
  | eq, x, y => some (Quad.ofBool (x == y))
  | ne, x, y => some (Quad.ofBool (x != y))
  | lt, x, y => some (Quad.ofBool (x.slt y))
  | le, x, y => some (Quad.ofBool (x.sle y))

namespace World

variable (W : World)

/-- What evaluating reads and changes. -/
structure Situation where
  words : Storage W.own
  /-- What the argument registers hold that calls do not set, in the order of the calls. -/
  spare : Stream' Quad

abbrev Eval (α : Type) := StateT W.Situation Option α

/-- The word at an address. -/
def read (a : Quad) : W.Eval Quad := fun s =>
  if h : W.own a then some (s.words ⟨a, h⟩, s) else none

def write (a v : Quad) : W.Eval Unit := fun s =>
  if h : W.own a then some ((), { s with words := Function.update s.words ⟨a, h⟩ v }) else none

/-- The value of a place of the given type. -/
def fetch (ty : Ty) (a : Quad) : W.Eval Quad := if ty.isArray then pure a else W.read a

/-- The result of a function. -/
def invoke (f : String) (args : List Quad) : W.Eval Quad := fun s =>
  let missing := maxArgs - args.length
  let r := W.callee f (args ++ s.spare.take missing) s.words
  some (r.1, ⟨r.2, s.spare.drop missing⟩)

/-- The address of a variable in a frame with the given base. -/
def address (base : Quad) : Var → Quad
  | .frame v => base + BitVec.ofInt 64 v.offset
  | .data v => W.symbol v.name

end World

namespace Expr

variable (W : World) (base : Quad)

mutual

/-- The value of an expression. -/
def eval : Expr → W.Eval Quad
  | num value _ _ => pure (BitVec.ofInt 64 value)
  | var v ty _ => W.fetch ty (W.address base v)
  | unary .neg operand _ _ => do return -(← operand.eval)
  | unary .addr operand _ _ => operand.evalAddress
  | unary .deref operand ty _ => do W.fetch ty (← operand.eval)
  | binary op lhs rhs _ _ => do
    let y ← rhs.eval
    let x ← lhs.eval
    StateT.lift (op.apply x y)
  | assign lhs rhs _ _ => do
    let a ← lhs.evalAddress
    let v ← rhs.eval
    W.write a v
    return v
  | call callee args _ _ => do W.invoke callee (← evalArgs args)

/-- The address that a place denotes. -/
def evalAddress : Expr → W.Eval Quad
  | var v _ _ => pure (W.address base v)
  | unary .deref operand _ _ => operand.eval
  | _ => fun _ => none

/-- The values of arguments from left to right. -/
def evalArgs : List Expr → W.Eval (List Quad)
  | [] => pure []
  | arg :: args => do
    let v ← arg.eval
    let vs ← evalArgs args
    return v :: vs

end

/-- The expression has a value, whatever the argument registers hold that its calls do not set. -/
def Defined (e : Expr) (words : Storage W.own) : Prop :=
  ∀ spare, (e.eval W base ⟨words, spare⟩).isSome

/-- The expression can have the value `v` and leave the words `words'`. -/
def Yields (e : Expr) (words : Storage W.own) (v : Quad) (words' : Storage W.own) : Prop :=
  ∃ spare rest, e.eval W base ⟨words, spare⟩ = some (v, ⟨words', rest⟩)

/-- How many words may wait on the stack at once while the code of an expression runs. -/
def need : Expr → Nat
  | num _ _ _ => 0
  | var _ _ _ => 0
  | unary _ operand _ _ => operand.need
  | binary _ lhs rhs _ _ => max rhs.need (lhs.need + 1)
  | assign lhs rhs _ _ => max lhs.need (rhs.need + 1)
  | call _ args _ _ => max (argsNeed args) 1
where
  argsNeed : List Expr → Nat
    | [] => 0
    | arg :: args => max arg.need (argsNeed args + 1)

end Expr

end WordC
