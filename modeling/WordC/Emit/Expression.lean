import WordC.Asm
import WordC.Problem
import WordC.Tree

/-!
# Code for expressions

Every expression leaves its value in `rax`. Operands wait on the stack:

* `lhs op rhs`: `rhs`, push, `lhs`, pop into `rdi`, the operation
* `lhs = rhs`: the address of `lhs`, push, `rhs`, pop into `rdi`, a store
* `f(args)`: each argument and a push, pops into the argument registers, the call
* a variable or dereference: its address, and a load unless its type is an array

`depth` counts the words that wait on the stack when the code starts. A call under an odd number of
them moves the stack pointer by one more word, so that it is a multiple of 16 there.

`Expr.fault?` finds what cannot be emitted, in the order of evaluation: the address of something that
is no place, and a call with more arguments than registers. The code of such a tree has no meaning.
-/
namespace WordC

open Asm

/-- `rax` becomes `rax op rdi`. -/
def BinaryOp.instrs : BinaryOp → List Instr
  | add => [.add .rdi .rax]
  | sub => [.sub .rdi .rax]
  | mul => [.mul .rdi .rax]
  | div => [.signExtend, .divide .rdi]
  | eq => [.compare .rdi .rax, .set .equal, .widen]
  | ne => [.compare .rdi .rax, .set .notEqual, .widen]
  | lt => [.compare .rdi .rax, .set .less, .widen]
  | le => [.compare .rdi .rax, .set .lessEqual, .widen]

namespace Expr

/-- From an address in `rax` to the value there; the value of an array is its address. -/
def loadInstrs (ty : Ty) : List Instr := if ty.isArray then [] else [.load .rax .rax]

/-- The address of a variable. -/
def varInstrs : Var → List Instr
  | .frame v => [.frameAddr v.offset .rax]
  | .data v => [.dataAddr v.name .rax]

/-- The call itself, its arguments being in their registers. -/
def callInstrs (callee : String) (depth : Nat) : List Instr :=
  if depth % 2 = 1 then
    [.subConst 8 .rsp, .const 0 .rax, .call callee, .addConst 8 .rsp]
  else
    [.const 0 .rax, .call callee]

/-- Pops so many arguments, the last one first, into their registers. -/
def popArgs (count : Nat) : List Instr := (argRegs.take count).reverse.map .pop

mutual

/-- The value of an expression into `rax`. -/
def code (depth : Nat) : Expr → List Instr
  | num value _ _ => [.const value .rax]
  | var v ty _ => varInstrs v ++ loadInstrs ty
  | unary .neg operand _ _ => operand.code depth ++ [.neg .rax]
  | unary .addr operand _ _ => operand.addressCode depth
  | unary .deref operand ty _ => operand.code depth ++ loadInstrs ty
  | binary op lhs rhs _ _ =>
    rhs.code depth ++ [.push .rax] ++ lhs.code (depth + 1) ++ [.pop .rdi] ++ op.instrs
  | assign lhs rhs _ _ =>
    lhs.addressCode depth ++ [.push .rax] ++ rhs.code (depth + 1) ++
      [.pop .rdi, .store .rax .rdi]
  | call callee args _ _ =>
    pushArgs depth args ++ popArgs args.length ++ callInstrs callee depth

/-- The address that a place denotes into `rax`. -/
def addressCode (depth : Nat) : Expr → List Instr
  | var v _ _ => varInstrs v
  | unary .deref operand _ _ => operand.code depth
  | _ => []

/-- Arguments from left to right onto the stack. -/
def pushArgs (depth : Nat) : List Expr → List Instr
  | [] => []
  | arg :: args => arg.code depth ++ [.push .rax] ++ pushArgs (depth + 1) args

end

mutual

/-- The first thing that cannot be emitted for the value of an expression. -/
def fault? : Expr → Option Fault
  | num _ _ _ => none
  | var _ _ _ => none
  | unary .neg operand _ _ => operand.fault?
  | unary .addr operand _ _ => operand.addressFault?
  | unary .deref operand _ _ => operand.fault?
  | binary _ lhs rhs _ _ => rhs.fault?.or lhs.fault?
  | assign lhs rhs _ _ => lhs.addressFault?.or rhs.fault?
  | call _ args _ _ =>
    (argsFault? args).or (if maxArgs < args.length then some .tooManyArguments else none)

/-- The first thing that cannot be emitted for the address of an expression. -/
def addressFault? : Expr → Option Fault
  | var _ _ _ => none
  | unary .deref operand _ _ => operand.fault?
  | _ => some .notStorage

def argsFault? : List Expr → Option Fault
  | [] => none
  | arg :: args => arg.fault?.or (argsFault? args)

end

end Expr

end WordC
