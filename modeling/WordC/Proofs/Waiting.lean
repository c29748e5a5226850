import WordC.Emit.Program
import WordC.Proofs.Tree

/-!
# Waiting operands

A push leaves one more operand waiting on the stack, and a pop one less. The code of an expression
takes off what it puts there, so between two steps of the control flow no operand waits.

* `Expr.waiting_code`: the pushes and pops in the code of an expression are even.
* `Stmt.waiting_lines`: no operand waits behind any number of steps of a statement.
-/
namespace WordC

open Asm

namespace Asm

/-- How many more operands wait behind an instruction. -/
def Instr.waiting : Instr → Int
  | push _ => 1
  | pop _ => -1
  | _ => 0

/-- How many more operands wait behind a line. -/
def Line.waiting : Line → Int
  | instr i => i.waiting
  | _ => 0

/-- How many more operands wait behind the given lines. -/
def waiting : List Line → Int
  | [] => 0
  | l :: ls => l.waiting + waiting ls

@[simp] theorem waiting_nil : waiting [] = 0 := rfl

@[simp] theorem waiting_cons (l : Line) (ls : List Line) : waiting (l :: ls) = l.waiting + waiting ls :=
  rfl

@[simp] theorem waiting_append (ls ls' : List Line) :
    waiting (ls ++ ls') = waiting ls + waiting ls' := by
  induction ls with
  | nil => simp
  | cons l ls ih => simp only [List.cons_append, waiting_cons, ih, Int.add_assoc]

end Asm

/-! ## Expressions -/

namespace Expr

/-- How many more operands wait behind the given instructions. -/
def waiting (is : List Instr) : Int := Asm.waiting (is.map .instr)

@[simp] theorem waiting_nil : waiting [] = 0 := rfl

@[simp] theorem waiting_cons (i : Instr) (is : List Instr) :
    waiting (i :: is) = i.waiting + waiting is := rfl

@[simp] theorem waiting_append (is js : List Instr) :
    waiting (is ++ js) = waiting is + waiting js := by
  simp [waiting]

@[simp] theorem waiting_loadInstrs (ty : Ty) : waiting (loadInstrs ty) = 0 := by
  unfold loadInstrs
  split <;> rfl

@[simp] theorem waiting_varInstrs (v : Var) : waiting (varInstrs v) = 0 := by
  cases v <;> rfl

@[simp] theorem waiting_callInstrs (callee : String) (depth : Nat) :
    waiting (callInstrs callee depth) = 0 := by
  unfold callInstrs
  split <;> rfl

@[simp] theorem waiting_binary (op : BinaryOp) : waiting op.instrs = 0 := by
  cases op <;> rfl

theorem waiting_popArgs {count : Nat} (h : count ≤ maxArgs) : waiting (popArgs count) = -count := by
  have hpops (rs : List Reg) : waiting (rs.map .pop) = -rs.length := by
    induction rs with
    | nil => rfl
    | cons r rs ih =>
      simp only [List.map_cons, waiting_cons, ih, Instr.waiting, List.length_cons]
      omega
  have hlength : (argRegs.take count).reverse.length = count := by
    simp only [List.length_reverse, List.length_take]
    exact Nat.min_eq_left h
  rw [popArgs, hpops, hlength]

theorem waiting_pushArgs {args : List Expr} (h : ∀ arg ∈ args, ∀ depth, waiting (arg.code depth) = 0) :
    ∀ depth, waiting (pushArgs depth args) = args.length := by
  induction args with
  | nil => intro depth; rfl
  | cons arg args ih =>
    intro depth
    obtain ⟨harg, hargs⟩ := List.forall_mem_cons.1 h
    simp only [pushArgs, waiting_append, waiting_cons, waiting_nil, harg, ih hargs, Instr.waiting,
      List.length_cons]
    omega

/-- Whatever the code of an expression pushes, it pops; so does the code of an address. -/
theorem waiting_code (e : Expr) : e.fault? = none →
    (∀ depth, waiting (e.code depth) = 0) ∧
      (e.isLvalue → ∀ depth, waiting (e.addressCode depth) = 0) := by
  induction e with
  | num value ty loc => intro _; exact ⟨fun _ => rfl, fun h => by cases h⟩
  | var v ty loc => intro _; exact ⟨by simp [code], by simp [addressCode]⟩
  | unary op operand ty loc ih =>
    intro hf
    cases op with
    | neg => exact ⟨by simp [code, (ih hf).1, Instr.waiting], fun h => by cases h⟩
    | addr =>
      obtain ⟨hplace, hf⟩ := (addressFault?_eq_none_iff operand).1 hf
      exact ⟨by simp [code, (ih hf).2 hplace], fun h => by cases h⟩
    | deref => exact ⟨by simp [code, (ih hf).1], by simp [addressCode, (ih hf).1]⟩
  | binary op lhs rhs ty loc ihl ihr =>
    intro hf
    obtain ⟨hr, hl⟩ := Option.or_eq_none_iff.1 hf
    exact ⟨by simp [code, (ihl hl).1, (ihr hr).1, Instr.waiting], fun h => by cases h⟩
  | assign lhs rhs ty loc ihl ihr =>
    intro hf
    obtain ⟨hl, hr⟩ := Option.or_eq_none_iff.1 hf
    obtain ⟨hplace, hl⟩ := (addressFault?_eq_none_iff lhs).1 hl
    exact ⟨by simp [code, (ihl hl).2 hplace, (ihr hr).1, Instr.waiting], fun h => by cases h⟩
  | call callee args ty loc ih =>
    intro hf
    obtain ⟨hargs, hcount⟩ := Option.or_eq_none_iff.1 hf
    have hcodes : ∀ arg ∈ args, ∀ depth, waiting (arg.code depth) = 0 := fun arg harg =>
      (ih arg harg (argsFault?_eq_none_iff.1 hargs arg harg)).1
    refine ⟨fun depth => ?_, fun h => by cases h⟩
    simp only [code, waiting_append, waiting_pushArgs hcodes, waiting_callInstrs,
      waiting_popArgs (show args.length ≤ maxArgs by simpa using hcount)]
    omega

end Expr

/-! ## Statements -/

namespace Flow

/-- The expression that a step evaluates. -/
def eval? : Flow → Option Expr
  | eval e => some e
  | _ => none

/-- The expressions that the given steps evaluate, in order. -/
def evaluated (fs : List Flow) : List Expr := fs.filterMap eval?

@[simp] theorem evaluated_nil : evaluated [] = [] := rfl

@[simp] theorem evaluated_eval (e : Expr) (fs : List Flow) :
    evaluated (eval e :: fs) = e :: evaluated fs := rfl

@[simp] theorem evaluated_branchZero (l : Label) (fs : List Flow) :
    evaluated (branchZero l :: fs) = evaluated fs := rfl

@[simp] theorem evaluated_jump (l : Label) (fs : List Flow) :
    evaluated (jump l :: fs) = evaluated fs := rfl

@[simp] theorem evaluated_label (l : Label) (fs : List Flow) :
    evaluated (label l :: fs) = evaluated fs := rfl

@[simp] theorem evaluated_append (fs gs : List Flow) :
    evaluated (fs ++ gs) = evaluated fs ++ evaluated gs :=
  List.filterMap_append

@[simp] theorem evaluated_evalOption (e : Option Expr) : evaluated (evalOption e) = e.toList := by
  cases e <;> rfl

@[simp] theorem evaluated_testOption (l : Label) (e : Option Expr) :
    evaluated (testOption l e) = e.toList := by
  cases e <;> rfl

/-- No operand waits behind a step. -/
theorem waiting_lines {step : Flow} (h : ∀ e ∈ step.eval?, e.fault? = none) :
    Asm.waiting step.lines = 0 := by
  cases step with
  | eval e => exact (e.waiting_code (h e rfl)).1 0
  | branchZero target | jump target | label l => rfl

/-- No operand waits behind any number of steps whose expressions can be emitted. -/
theorem waiting_flatMap {steps : List Flow} (h : ∀ e ∈ evaluated steps, e.fault? = none) :
    Asm.waiting (steps.flatMap lines) = 0 := by
  induction steps with
  | nil => rfl
  | cons step steps ih =>
    have hstep : ∀ e ∈ step.eval?, e.fault? = none := fun e he =>
      h e (List.mem_filterMap.2 ⟨step, List.mem_cons_self, he⟩)
    have hsteps : ∀ e ∈ evaluated steps, e.fault? = none := by
      intro e he
      obtain ⟨t, ht, he⟩ := List.mem_filterMap.1 he
      exact h e (List.mem_filterMap.2 ⟨t, List.mem_cons_of_mem step ht, he⟩)
    rw [List.flatMap_cons, Asm.waiting_append, waiting_lines hstep, ih hsteps]
    rfl

end Flow

namespace Stmt

/-- The steps of a statement evaluate its roots, in the order in which they are written. -/
theorem evaluated_flow (f : String) (s : Stmt) : ∀ used, Flow.evaluated (s.flow f used) = s.roots := by
  induction s with
  | eval e => intro used; simp [flow, roots]
  | ret value => intro used; simp [flow, roots]
  | block stmts ih =>
    simp only [flow, roots]
    induction stmts with
    | nil => intro used; rfl
    | cons s ss ihs =>
      intro used
      obtain ⟨hs, hss⟩ := List.forall_mem_cons.1 ih
      simp only [flowAll, rootsAll, Flow.evaluated_append, hs, ihs hss]
  | ite cond onTrue onFalse iht ihf =>
    intro used
    cases onFalse with
    | none => simp [flow, roots, iht]
    | some onFalse => simp [flow, roots, iht, ihf onFalse rfl]
  | loop init cond step body ihi ihb =>
    intro used
    cases init with
    | none => simp [flow, roots, ihb]
    | some init => simp [flow, roots, ihb, ihi init rfl]

/-- No operand waits behind any number of steps of a statement that can be emitted. -/
theorem waiting_lines {f : String} {s : Stmt} {used : Nat} {steps : List Flow}
    (h : s.fault? = none) (hsteps : steps <+: s.flow f used) :
    Asm.waiting (steps.flatMap Flow.lines) = 0 := by
  refine Flow.waiting_flatMap fun e he => s.fault?_eq_none_iff_roots.1 h e ?_
  obtain ⟨step, hstep, he⟩ := List.mem_filterMap.1 he
  rw [← s.evaluated_flow f used]
  exact List.mem_filterMap.2 ⟨step, hsteps.subset hstep, he⟩

end Stmt

end WordC
