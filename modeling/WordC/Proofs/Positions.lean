import WordC.Emit.Program
import WordC.Parse.Objects
import WordC.Proofs.Surface
import WordC.Proofs.Tree

/-!
# Programs up to their positions

A position stands in every token, expression and issue. Here they are forgotten: everything is moved
to nowhere, and two things that are then the same differ in their positions only.

* `Stmt.unplaced`, `Program.unplaced`, `Issue.unplaced`: trees, programs and findings without their
  positions.
* `Expr.code_unplaced`, `Stmt.flow_unplaced`, `Program.emit_unplaced`: the code does not depend on
  positions, and neither does what stands in its way.
* `Issue.content_unplaced`: nor do the kind and the wording of a finding.
-/
namespace WordC

/-! ## Code of expressions -/

namespace Expr

variable {es : List Expr}

theorem pushArgs_unplacedAll (h : ∀ e ∈ es, ∀ depth, e.unplaced.code depth = e.code depth)
    (depth : Nat) : pushArgs depth (unplacedAll es) = pushArgs depth es := by
  induction es generalizing depth with
  | nil => rfl
  | cons e es ih =>
    obtain ⟨hhead, htail⟩ := List.forall_mem_cons.1 h
    simp only [unplacedAll, pushArgs, hhead, ih htail]

theorem argsFault?_unplacedAll (h : ∀ e ∈ es, e.unplaced.fault? = e.fault?) :
    argsFault? (unplacedAll es) = argsFault? es := by
  induction es with
  | nil => rfl
  | cons e es ih =>
    obtain ⟨hhead, htail⟩ := List.forall_mem_cons.1 h
    simp only [unplacedAll, argsFault?, hhead, ih htail]

/-- The value and the address of an expression are computed by the same code wherever it stands. The
two go together, since the address of a dereference is the value of its operand. -/
theorem codes_unplaced (e : Expr) : ∀ depth,
    e.unplaced.code depth = e.code depth ∧ e.unplaced.addressCode depth = e.addressCode depth := by
  induction e with
  | num value ty loc => intro depth; simp [code, addressCode]
  | var v ty loc => intro depth; simp [code, addressCode]
  | unary op operand ty loc ih =>
    intro depth
    cases op <;> simp [code, addressCode, ih]
  | binary op lhs rhs ty loc ihl ihr => intro depth; simp [code, addressCode, ihl, ihr]
  | assign lhs rhs ty loc ihl ihr => intro depth; simp [code, addressCode, ihl, ihr]
  | call callee args ty loc ih =>
    intro depth
    have hargs := pushArgs_unplacedAll (fun arg harg depth => (ih arg harg depth).1) depth
    simp [code, addressCode, hargs, length_unplacedAll]

@[simp] theorem code_unplaced (e : Expr) (depth : Nat) : e.unplaced.code depth = e.code depth :=
  (e.codes_unplaced depth).1

theorem faults_unplaced (e : Expr) :
    e.unplaced.fault? = e.fault? ∧ e.unplaced.addressFault? = e.addressFault? := by
  induction e with
  | num value ty loc => simp [fault?, addressFault?]
  | var v ty loc => simp [fault?, addressFault?]
  | unary op operand ty loc ih => cases op <;> simp [fault?, addressFault?, ih]
  | binary op lhs rhs ty loc ihl ihr => simp [fault?, addressFault?, ihl, ihr]
  | assign lhs rhs ty loc ihl ihr => simp [fault?, addressFault?, ihl, ihr]
  | call callee args ty loc ih =>
    have hargs := argsFault?_unplacedAll fun arg harg => (ih arg harg).1
    simp [fault?, addressFault?, hargs, length_unplacedAll]

@[simp] theorem fault?_unplaced (e : Expr) : e.unplaced.fault? = e.fault? := e.faults_unplaced.1

end Expr

/-! ## Code of statements -/

namespace Stmt

mutual

/-- The statement with all its expressions nowhere. -/
@[simp] def unplaced : Stmt → Stmt
  | eval e => eval (e.map Expr.unplaced)
  | ret value => ret (value.map Expr.unplaced)
  | block stmts => block (unplacedAll stmts)
  | ite cond onTrue none => ite cond.unplaced onTrue.unplaced none
  | ite cond onTrue (some onFalse) => ite cond.unplaced onTrue.unplaced (some onFalse.unplaced)
  | loop none cond step body =>
    loop none (cond.map Expr.unplaced) (step.map Expr.unplaced) body.unplaced
  | loop (some init) cond step body =>
    loop (some init.unplaced) (cond.map Expr.unplaced) (step.map Expr.unplaced) body.unplaced

@[simp] def unplacedAll : List Stmt → List Stmt
  | [] => []
  | s :: ss => s.unplaced :: unplacedAll ss

end

theorem unplacedAll_append (ss ss' : List Stmt) :
    unplacedAll (ss ++ ss') = unplacedAll ss ++ unplacedAll ss' := by
  induction ss with
  | nil => rfl
  | cons s ss ih => simp [ih]

@[simp] theorem labels_unplaced (s : Stmt) : s.unplaced.labels = s.labels := by
  induction s with
  | eval e => simp [labels]
  | ret value => simp [labels]
  | block stmts ih =>
    simp only [unplaced, labels]
    induction stmts with
    | nil => rfl
    | cons s ss ihs =>
      obtain ⟨hhead, htail⟩ := List.forall_mem_cons.1 ih
      simp only [unplacedAll, labelsAll, hhead, ihs htail]
  | ite cond onTrue onFalse iht ihf =>
    cases onFalse with
    | none => simp [labels, iht]
    | some onFalse => simp [labels, iht, ihf onFalse rfl]
  | loop init cond step body ihi ihb =>
    cases init with
    | none => simp [labels, ihb]
    | some init => simp [labels, ihb, ihi init rfl]

@[simp] theorem optionFault?_unplaced (e : Option Expr) :
    optionFault? (e.map Expr.unplaced) = optionFault? e := by
  cases e <;> simp [optionFault?]

@[simp] theorem fault?_unplaced (s : Stmt) : s.unplaced.fault? = s.fault? := by
  induction s with
  | eval e => simp [fault?]
  | ret value => simp [fault?]
  | block stmts ih =>
    simp only [unplaced, fault?]
    induction stmts with
    | nil => rfl
    | cons s ss ihs =>
      obtain ⟨hhead, htail⟩ := List.forall_mem_cons.1 ih
      simp only [unplacedAll, faultAll?, hhead, ihs htail]
  | ite cond onTrue onFalse iht ihf =>
    cases onFalse with
    | none => simp [fault?, iht]
    | some onFalse => simp [fault?, iht, ihf onFalse rfl]
  | loop init cond step body ihi ihb =>
    cases init with
    | none => simp [fault?, ihb]
    | some init => simp [fault?, ihb, ihi init rfl]

end Stmt

namespace Flow

/-- The step with its expression nowhere. -/
def unplaced : Flow → Flow
  | eval e => eval e.unplaced
  | branchZero target => branchZero target
  | jump target => jump target
  | label l => label l

@[simp] theorem lines_unplaced (f : Flow) : f.unplaced.lines = f.lines := by
  cases f <;> simp [unplaced, lines]

@[simp] theorem evalOption_unplaced (e : Option Expr) :
    evalOption (e.map Expr.unplaced) = (evalOption e).map unplaced := by
  cases e <;> rfl

@[simp] theorem testOption_unplaced (target : Asm.Label) (e : Option Expr) :
    testOption target (e.map Expr.unplaced) = (testOption target e).map unplaced := by
  cases e <;> rfl

end Flow

/-- Forgetting positions before or after the steps are laid out is the same. -/
theorem Stmt.flow_unplaced (s : Stmt) (function : String) : ∀ used,
    s.unplaced.flow function used = (s.flow function used).map Flow.unplaced := by
  induction s with
  | eval e => simp [flow]
  | ret value => simp [flow, Flow.unplaced]
  | block stmts ih =>
    simp only [unplaced, flow]
    induction stmts with
    | nil => intro used; rfl
    | cons s ss ihs =>
      intro used
      obtain ⟨hhead, htail⟩ := List.forall_mem_cons.1 ih
      simp only [unplacedAll, flowAll, hhead, ihs htail, labels_unplaced, List.map_append]
  | ite cond onTrue onFalse iht ihf =>
    cases onFalse with
    | none => simp [flow, Flow.unplaced, iht]
    | some onFalse => simp [flow, Flow.unplaced, iht, ihf onFalse rfl]
  | loop init cond step body ihi ihb =>
    cases init with
    | none => simp [flow, Flow.unplaced, ihb]
    | some init => simp [flow, Flow.unplaced, ihb, ihi init rfl]

/-! ## Programs -/

def Function.unplaced (f : Function) : Function := { f with body := f.body.unplaced }

namespace Function

theorem bodyLines_unplaced (f : Function) (used : Nat) :
    f.unplaced.bodyLines used = f.bodyLines used := by
  simp only [bodyLines, unplaced, Stmt.flow_unplaced, List.flatMap_map, Flow.lines_unplaced]

theorem emit_unplaced (f : Function) (used : Nat) : f.unplaced.emit used = f.emit used := by
  have hlines (frame : Int) : f.unplaced.lines used frame = f.lines used frame := by
    rw [lines, bodyLines_unplaced]
    rfl
  have hfault : f.unplaced.body.fault? = f.body.fault? := f.body.fault?_unplaced
  have hsize : f.unplaced.stackSize = f.stackSize := rfl
  simp only [emit, hlines, hfault, hsize]

end Function

namespace Object

def unplaced : Object → Object
  | global v => global v
  | function f => function f.unplaced

@[simp] theorem global?_unplaced (o : Object) : o.unplaced.global? = o.global? := by
  cases o <;> rfl

@[simp] theorem function?_unplaced (o : Object) :
    o.unplaced.function? = o.function?.map Function.unplaced := by
  cases o <;> rfl

end Object

namespace Program

/-- The program with all its expressions nowhere. -/
def unplaced (p : Program) : Program := ⟨p.objects.map Object.unplaced⟩

theorem globals_unplaced (p : Program) : p.unplaced.globals = p.globals := by
  simp only [globals, unplaced, List.filterMap_map, Function.comp_def, Object.global?_unplaced]

theorem functions_unplaced (p : Program) :
    p.unplaced.functions = p.functions.map Function.unplaced := by
  simp only [functions, unplaced, List.filterMap_map, Function.comp_def, List.map_filterMap,
    Object.function?_unplaced]

theorem emitFunctions_unplaced (fs : List Function) (used : Nat) :
    emitFunctions used (fs.map Function.unplaced) = emitFunctions used fs := by
  induction fs generalizing used with
  | nil => rfl
  | cons f fs ih =>
    have hlabels : f.unplaced.body.labels = f.body.labels := f.body.labels_unplaced
    simp only [List.map_cons, emitFunctions, Function.emit_unplaced, hlabels, ih]

theorem functionLabels_unplaced (fs : List Function) :
    functionLabels (fs.map Function.unplaced) = functionLabels fs := by
  induction fs with
  | nil => rfl
  | cons f fs ih =>
    have hlabels : f.unplaced.body.labels = f.body.labels := f.body.labels_unplaced
    simp only [List.map_cons, functionLabels, hlabels, ih]

theorem emit_unplaced (p : Program) : p.unplaced.emit = p.emit := by
  simp only [emit, emitData, globals_unplaced, functions_unplaced, emitFunctions_unplaced]

theorem labels_unplaced (p : Program) : p.unplaced.labels = p.labels := by
  rw [labels, functions_unplaced, functionLabels_unplaced, labels]

variable {p q : Program}

/-- Programs that differ in their positions only have the same code. -/
theorem emit_eq (h : p.unplaced = q.unplaced) : p.emit = q.emit := by
  rw [← p.emit_unplaced, h, q.emit_unplaced]

theorem labels_eq (h : p.unplaced = q.unplaced) : p.labels = q.labels := by
  rw [← p.labels_unplaced, h, q.labels_unplaced]

end Program

/-! ## Findings -/

/-- What a diagnostic says, wherever it says it. -/
def Diagnostic.content (d : Diagnostic) : Diagnostic.Kind × String := (d.kind, d.message)

namespace Issue

def unplaced : Issue → Issue
  | lexical _ problem => lexical .nowhere problem
  | rejected r => rejected ⟨.nowhere, r.problem⟩
  | caution _ c => caution .nowhere c

/-- The kind and the message of an issue. -/
def content (i : Issue) : Diagnostic.Kind × String := i.toDiagnostic.content

@[simp] theorem content_unplaced (i : Issue) : i.unplaced.content = i.content := by
  cases i with
  | lexical loc problem => rfl
  | rejected r =>
    simp only [unplaced, content, toDiagnostic, Rejection.toFailure]
    split <;> rfl
  | caution loc c => rfl

@[simp] theorem isFatal_unplaced (i : Issue) : i.unplaced.isFatal = i.isFatal := by
  cases i <;> rfl

end Issue

end WordC
