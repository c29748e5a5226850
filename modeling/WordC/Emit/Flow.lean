import WordC.Emit.Expression

/-!
# Control flow

The statements of a function are flattened into steps: evaluating an expression, jumps and labels.
Each conditional and each loop takes one new number for its labels; numbers are given in the order
in which the statements start, so a statement uses exactly the `labels` numbers behind the one it
is given.

* `if (c) s else t`: `c`, to *else* if zero, `s`, to *end*, *else*, `t`, *end*
* `for (i; c; n) s`: `i`, *begin*, `c`, to *end* if zero, `s`, `n`, to *begin*, *end*
* `return e`: `e`, to the end of the function
-/
namespace WordC

open Asm

/-- A step of flattened control flow. -/
inductive Flow where
  | eval (e : Expr)
  /-- To the label if the last value is zero. -/
  | branchZero (target : Label)
  | jump (target : Label)
  | label (l : Label)

namespace Flow

/-- The lines of a step. No operand waits on the stack between steps. -/
def lines : Flow → List Line
  | eval e => (e.code 0).map .instr
  | branchZero target => [.instr (.compareZero .rax), .instr (.jumpIfEqual target)]
  | jump target => [.instr (.jump target)]
  | label l => [.label l]

/-- The evaluation of an expression that may be missing. -/
def evalOption : Option Expr → List Flow
  | some e => [eval e]
  | none => []

/-- The test of a loop: a missing condition always holds. -/
def testOption (target : Label) : Option Expr → List Flow
  | some e => [eval e, branchZero target]
  | none => []

end Flow

namespace Stmt

mutual

/-- How many numbers the labels of a statement take. -/
def labels : Stmt → Nat
  | eval _ => 0
  | ret _ => 0
  | block stmts => labelsAll stmts
  | ite _ onTrue none => 1 + onTrue.labels
  | ite _ onTrue (some onFalse) => 1 + onTrue.labels + onFalse.labels
  | loop none _ _ body => 1 + body.labels
  | loop (some init) _ _ body => 1 + init.labels + body.labels

def labelsAll : List Stmt → Nat
  | [] => 0
  | s :: ss => s.labels + labelsAll ss

end

mutual

/-- The steps of a statement in the given function, when `used` label numbers are taken. -/
def flow (function : String) (used : Nat) : Stmt → List Flow
  | eval e => Flow.evalOption e
  | ret value => Flow.evalOption value ++ [.jump (.leave function)]
  | block stmts => flowAll function used stmts
  | ite cond onTrue none =>
    let n := used + 1
    [.eval cond, .branchZero (.orElse n)] ++ onTrue.flow function n ++
      [.jump (.done n), .label (.orElse n), .label (.done n)]
  | ite cond onTrue (some onFalse) =>
    let n := used + 1
    [.eval cond, .branchZero (.orElse n)] ++ onTrue.flow function n ++
      [.jump (.done n), .label (.orElse n)] ++ onFalse.flow function (n + onTrue.labels) ++
      [.label (.done n)]
  | loop none cond step body =>
    let n := used + 1
    [.label (.begin n)] ++ Flow.testOption (.done n) cond ++ body.flow function n ++
      Flow.evalOption step ++ [.jump (.begin n), .label (.done n)]
  | loop (some init) cond step body =>
    let n := used + 1
    init.flow function n ++ [.label (.begin n)] ++ Flow.testOption (.done n) cond ++
      body.flow function (n + init.labels) ++ Flow.evalOption step ++
      [.jump (.begin n), .label (.done n)]

def flowAll (function : String) (used : Nat) : List Stmt → List Flow
  | [] => []
  | s :: ss => s.flow function used ++ flowAll function (used + s.labels) ss

end

/-- The first thing in an expression, if there is one, that cannot be emitted. -/
def optionFault? : Option Expr → Option Fault
  | some e => e.fault?
  | none => none

mutual

/-- The first thing in a statement that cannot be emitted. -/
def fault? : Stmt → Option Fault
  | eval e => optionFault? e
  | ret value => optionFault? value
  | block stmts => faultAll? stmts
  | ite cond onTrue none => cond.fault?.or onTrue.fault?
  | ite cond onTrue (some onFalse) => (cond.fault?.or onTrue.fault?).or onFalse.fault?
  | loop none cond step body => ((optionFault? cond).or body.fault?).or (optionFault? step)
  | loop (some init) cond step body =>
    ((init.fault?.or (optionFault? cond)).or body.fault?).or (optionFault? step)

def faultAll? : List Stmt → Option Fault
  | [] => none
  | s :: ss => s.fault?.or (faultAll? ss)

end

end Stmt

end WordC
