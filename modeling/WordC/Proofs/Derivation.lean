import WordC.Proofs.Consuming
import WordC.Proofs.ReadStatement

/-!
# Expressions and statements follow the grammar

Every reader has a form, and the tokens it takes can be derived from that form: one lemma for each
reader, and an induction on the budget that puts them together. Budgets need not suffice for this; a
reader without one has no result.

* `Level.step`: what the operators of a level repeat, read off the table of operators.
* `expressionForms`, `statementForms`: the readers and their forms.
* `Consumes.block`: the items of a block and its closing brace.
-/
namespace WordC.Parse

open Grammar Computability

/-! ## Repetitions -/

/-- One more of what is repeated, or the end of it. -/
theorem repeat_then (x c : Language Token) : c + x * (x∗ * c) = x∗ * c := by
  rw [← mul_assoc, ← one_add_mul, Language.one_add_self_mul_kstar_eq_kstar]

/-- Any number of items with commas between them and a semicolon behind; unless it is the first one,
a comma goes before each. -/
def untilSemicolon (item : Language Token) (first : Bool) : Language Token :=
  if first then (item * (mark "," * item)∗ + 1) * mark ";" else (mark "," * item)∗ * mark ";"

theorem untilSemicolon_step (item : Language Token) (first : Bool) :
    mark ";" + (if first then 1 else mark ",") * (item * untilSemicolon item false) =
      untilSemicolon item first := by
  cases first with
  | true =>
    simp only [untilSemicolon, if_true, Bool.false_eq_true, if_false]
    rw [one_mul, add_mul, one_mul, mul_assoc, add_comm]
  | false =>
    simp only [untilSemicolon, Bool.false_eq_true, if_false]
    rw [← mul_assoc, repeat_then]

/-! ## Expressions -/

namespace Level

/-- The form that operators of a level make. -/
def form : Level → Form
  | equality => .equality
  | relational => .relational
  | additive => .add
  | multiplicative => .mul

def operandForm : Level → Form
  | equality => .relational
  | relational => .add
  | additive => .mul
  | multiplicative => .unary

/-- One of the operators and its right operand. -/
def step (level : Level) : Pattern :=
  match level.operators.map fun op => Pattern.row [.text op.symbol, .form level.operandForm] with
  | [] => .nothing
  | p :: ps => .choice p ps

theorem language_form (level : Level) :
    level.form.language = level.operandForm.language * level.step.language∗ := by
  have hrule : level.form.rule = .row [.form level.operandForm, .many level.step] := by
    cases level <;> rfl
  rw [Form.language_eq, hrule]
  simp only [Pattern.row, Pattern.language_both, Pattern.language_many, Pattern.language_form]

theorem step_le {level : Level} {op : Operator} (h : op ∈ level.operators) :
    mark op.symbol * level.operandForm.language ≤ level.step.language := by
  have hmem : Pattern.row [.text op.symbol, .form level.operandForm] ∈
      level.operators.map fun op => Pattern.row [.text op.symbol, .form level.operandForm] :=
    List.mem_map_of_mem h
  unfold step
  cases hsteps : level.operators.map
      fun op => Pattern.row [.text op.symbol, .form level.operandForm] with
  | nil => rw [hsteps] at hmem; cases hmem
  | cons p ps =>
    rw [hsteps] at hmem
    have hle := Pattern.language_le_choice hmem
    simpa only [Pattern.row, Pattern.language_both, Pattern.language_text, Pattern.language_form]
      using hle

end Level

/-- A call: the name, and what stands in the parentheses with the closing one. -/
theorem language_call : Form.call.language = Pattern.ident.language * (mark "(" * (mark ")" +
    Form.assign.language * ((mark "," * Form.assign.language)∗ * mark ")"))) := by
  rw [Form.language_eq]
  simp only [Form.rule, Pattern.row, Pattern.language_both, Pattern.language_optional,
    Pattern.language_listOf, Pattern.language_text, Pattern.language_form]
  rw [add_mul, one_mul, mul_assoc, add_comm (mark ")")]

theorem language_expression : Form.expression.language = Form.assign.language :=
  Form.language_eq .expression

namespace Parser

/-- To check a call takes no tokens. -/
theorem Consumes.callOf {s : State} (callee : String) (args : List Expr) (loc : Loc) :
    Consumes s 1 (Parser.callOf callee args loc) := by
  unfold Parser.callOf
  split
  · exact reject _ _
  refine afterNothing (M := 1) ?_ fun _ _ => pure _
  refine get ?_
  split
  · refine (record _).afterNothing fun _ _ => ?_
    split
    · exact reject _ _
    · exact pure ()
  · intro u s' h
    cases h
    exact .beside rfl rfl (List.prefix_refl _)

theorem Consumes.variableOf {s : State} (token : Token) : Consumes s 1 (Parser.variableOf token) := by
  refine get ?_
  split
  · exact pure _
  · exact reject _ _

/-- The tokens that each reader of expressions takes, with this budget. -/
structure ExpressionForms (budget : Nat) : Prop where
  assign (s : State) : Consumes s Form.assign.language (assign budget)
  chain (s : State) (level : Level) : Consumes s level.form.language (chain budget level)
  operand (s : State) (level : Level) : Consumes s level.operandForm.language (operand budget level)
  chainFrom (s : State) (level : Level) (lhs : Expr) :
    Consumes s level.step.language∗ (chainFrom budget level lhs)
  unary (s : State) : Consumes s Form.unary.language (unary budget)
  subscripted (s : State) : Consumes s Form.subscripted.language (subscripted budget)
  subscripts (s : State) (base : Expr) :
    Consumes s (mark "[" * (Form.expression.language * mark "]"))∗ (subscripts budget base)
  primary (s : State) : Consumes s Form.primary.language (primary budget)
  arguments (s : State) :
    Consumes s (Form.assign.language * ((mark "," * Form.assign.language)∗ * mark ")"))
      (arguments budget)

namespace ExpressionForms

variable {s : State} {budget : Nat}

theorem assign_succ (h : ExpressionForms budget) :
    Consumes s Form.assign.language (Parser.assign (budget + 1)) := by
  rw [Form.language_eq]
  simp only [Form.rule, Pattern.row, Pattern.language_both, Pattern.language_optional,
    Pattern.language_text, Pattern.language_form]
  unfold Parser.assign
  refine (h.chain s .equality).bind fun target s₁ => .here ?_
  refine .acceptElse (fun s₂ => ?_) (.pure _)
  split
  · exact (h.assign s₂).andNothing fun value s₃ => .ofRejection _
  · exact .reject _ _

theorem chain_succ (h : ExpressionForms budget) {level : Level} :
    Consumes s level.form.language (Parser.chain (budget + 1) level) := by
  rw [Level.language_form]
  unfold Parser.chain
  exact (h.operand s level).bind fun first s₁ => h.chainFrom s₁ level first

theorem operand_succ (h : ExpressionForms budget) {level : Level} :
    Consumes s level.operandForm.language (Parser.operand (budget + 1) level) := by
  unfold Parser.operand
  cases level with
  | equality => exact h.chain s .relational
  | relational => exact h.chain s .additive
  | additive => exact h.chain s .multiplicative
  | multiplicative => exact h.unary s

theorem chainFrom_succ (h : ExpressionForms budget) {level : Level} {lhs : Expr} :
    Consumes s level.step.language∗ (Parser.chainFrom (budget + 1) level lhs) := by
  unfold Parser.chainFrom
  refine .current ?_
  split
  · rename_i op hop
    have his : s.current.is op.symbol := by
      have hsome := List.find?_some hop
      exact hsome
    obtain ⟨ts, hrest⟩ := State.rest_of_is his
    have hread : Consumes s (mark op.symbol *
        (level.operandForm.language * level.step.language∗)) _ :=
      (Consumes.advance hrest his).bind fun _ s₁ => (h.operand s₁ level).bind fun rhs s₂ =>
        (Consumes.ofStop (op.build lhs rhs s.current.loc)).afterNothing fun node s₃ =>
          h.chainFrom s₃ level node
    refine hread.mono ?_
    rw [← mul_assoc]
    exact (mul_le_mul_left (Level.step_le (List.mem_of_find?_eq_some hop)) _).trans mul_kstar_le_kstar
  · exact (Consumes.pure lhs).mono one_le_kstar

theorem unary_succ (h : ExpressionForms budget) :
    Consumes s Form.unary.language (Parser.unary (budget + 1)) := by
  rw [Form.language_eq]
  simp only [Form.rule, Pattern.row, Pattern.choice, Pattern.language_both, Pattern.language_either,
    Pattern.language_text, Pattern.language_form, add_mul, add_assoc]
  unfold Parser.unary
  refine .here (.acceptElse h.unary ?_)
  refine .acceptElse (fun s₁ => (h.unary s₁).andNothing fun _ _ => .ofRejection _) ?_
  refine .acceptElse (fun s₁ => (h.unary s₁).andNothing fun operand s₂ => ?_) ?_
  · split
    · exact .ofRejection _
    · exact .reject _ _
  exact .acceptElse (fun s₁ => (h.unary s₁).andNothing fun _ _ => .ofRejection _) (h.subscripted s)

theorem subscripted_succ (h : ExpressionForms budget) :
    Consumes s Form.subscripted.language (Parser.subscripted (budget + 1)) := by
  rw [Form.language_eq]
  simp only [Form.rule, Pattern.row, Pattern.language_both, Pattern.language_many,
    Pattern.language_text, Pattern.language_form]
  unfold Parser.subscripted
  exact (h.primary s).bind fun first s₁ => h.subscripts s₁ first

theorem subscripts_succ (h : ExpressionForms budget) {base : Expr} :
    Consumes s (mark "[" * (Form.expression.language * mark "]"))∗
      (Parser.subscripts (budget + 1) base) := by
  have hindex (s₁ : State) : Consumes s₁ Form.expression.language (Parser.assign budget) := by
    rw [language_expression]
    exact h.assign s₁
  rw [← Language.one_add_self_mul_kstar_eq_kstar, add_comm, mul_assoc, mul_assoc]
  unfold Parser.subscripts
  refine .here (.acceptElse (fun s₁ => ?_) (.pure base))
  refine (hindex s₁).bind fun index s₂ => (Consumes.expect "]").bind fun _ s₃ => ?_
  refine (Consumes.ofStop _).afterNothing fun address s₄ => ?_
  exact (Consumes.ofRejection _).afterNothing fun element s₅ => h.subscripts s₅ element

theorem arguments_succ (h : ExpressionForms budget) :
    Consumes s (Form.assign.language * ((mark "," * Form.assign.language)∗ * mark ")"))
      (Parser.arguments (budget + 1)) := by
  unfold Parser.arguments
  rw [← repeat_then, mul_assoc]
  refine (h.assign s).bind fun arg s₁ => ?_
  have hread : Consumes s₁ (mark ")" * 1 + mark "," * (Form.assign.language *
      ((mark "," * Form.assign.language)∗ * mark ")"))) _ :=
    .acceptElse (fun s₂ => .pure [arg]) ((Consumes.expect ",").bind fun _ s₂ =>
      (h.arguments s₂).andNothing fun more s₃ => .pure (arg :: more))
  rwa [mul_one] at hread

theorem primary_succ (h : ExpressionForms budget) :
    Consumes s Form.primary.language (Parser.primary (budget + 1)) := by
  rw [Form.language_eq]
  simp only [Form.rule, Pattern.row, Pattern.choice, Pattern.language_both, Pattern.language_either,
    Pattern.language_text, Pattern.language_form]
  unfold Parser.primary
  refine .current ?_
  refine .acceptElse (fun s₁ => ?_) ?_
  · rw [language_expression]
    exact (h.assign s₁).bind fun inner s₂ => (Consumes.expect ")").andNothing fun _ s₃ => .pure inner
  refine .acceptElse (fun s₁ => ?_) ?_
  · exact (h.unary s₁).andNothing fun operand s₂ =>
      (Consumes.ofFault _).andNothing fun size s₃ => .pure _
  split
  · rename_i hkind
    obtain ⟨ts, hrest⟩ := State.rest_of_kind_ne (s := s) (by rw [hkind]; decide)
    refine Consumes.mono (L := Pattern.ident.language * (mark "(" * (mark ")" * 1 +
      Form.assign.language * ((mark "," * Form.assign.language)∗ * mark ")")) + 1)) ?_ ?_
    · rw [Pattern.language_ident]
      refine (Consumes.advance hrest hkind).bind fun _ s₁ => ?_
      refine .acceptElse (fun s₂ => ?_) (.variableOf s.current)
      refine .acceptElse (fun s₃ => (Consumes.pure []).afterNothing fun _ _ => .callOf _ _ _) ?_
      exact (h.arguments s₂).andNothing fun args s₃ => .callOf _ _ _
    · rw [mul_add, mul_one, mul_one, ← add_assoc, ← language_call]
      exact le_self_add
  split
  · refine Consumes.mono ?_ (le_add_self.trans le_add_self)
    refine Consumes.andNothing (fun v s' hrun => ?_) fun v s₁ => .pure _
    exact (number_consumes hrun).mono (numberOf_le v)
  · exact .reject _ _

end ExpressionForms

theorem expressionForms (budget : Nat) : ExpressionForms budget := by
  induction budget with
  | zero => constructor <;> intros <;> intro a s' h <;> cases h
  | succ budget ih =>
    exact {
      assign := fun s => ih.assign_succ
      chain := fun s level => ih.chain_succ
      operand := fun s level => ih.operand_succ
      chainFrom := fun s level lhs => ih.chainFrom_succ
      unary := fun s => ih.unary_succ
      subscripted := fun s => ih.subscripted_succ
      subscripts := fun s base => ih.subscripts_succ
      primary := fun s => ih.primary_succ
      arguments := fun s => ih.arguments_succ }

theorem Consumes.expression {s : State} : Consumes s Form.expression.language Parser.expression := by
  rw [language_expression]
  exact get ((expressionForms _).assign s)

/-! ## Statements -/

theorem Consumes.expressionStatement {s : State} :
    Consumes s Form.expressionStatement.language Parser.expressionStatement := by
  rw [Form.language_eq]
  simp only [Form.rule, Pattern.row, Pattern.language_both, Pattern.language_optional,
    Pattern.language_text, Pattern.language_form]
  refine mono (L := mark ";" * 1 + Form.expression.language * mark ";") ?_ ?_
  · refine acceptElse (fun s₁ => pure _) ?_
    exact expression.bind fun e s₁ => (expect ";").andNothing fun _ s₂ => pure _
  · rw [mul_one, add_mul, one_mul, add_comm]

theorem Consumes.expressionUnless {s : State} (text : String) :
    Consumes s (Form.expression.language + 1) (Parser.expressionUnless text) := by
  refine sees ?_
  split
  · exact (pure _).mono le_add_self
  · exact (expression.andNothing fun e s₁ => pure _).mono le_self_add

theorem Consumes.separator {s : State} (first : Bool) :
    Consumes s (if first then 1 else mark ",") (Parser.separator first) := by
  cases first with
  | true => exact pure ()
  | false => exact expect ","

theorem Consumes.initializer {s : State} (v : Local) (loc : Loc) :
    Consumes s (mark "=" * Form.assign.language + 1) (Parser.initializer v loc) := by
  rw [← language_expression]
  refine here (acceptElse (fun s₁ => ?_) (pure []))
  exact expression.andNothing fun value s₂ => (ofRejection _).andNothing fun node s₃ => pure _

theorem declarators_consume (base : Ty) (budget : Nat) : ∀ s first,
    Consumes s
      (untilSemicolon (Form.declarator.language * (mark "=" * Form.assign.language + 1)) first)
      (declarators budget base first) := by
  induction budget with
  | zero => intro s first a s' h; cases h
  | succ budget ih =>
    intro s first
    rw [← untilSemicolon_step, mul_assoc]
    refine Consumes.mono (Consumes.acceptElse (fun s₁ => Consumes.pure []) ?_) (by rw [mul_one])
    refine (Consumes.separator first).bind fun _ s₁ => (Consumes.declarator base).bind fun d s₂ => ?_
    refine (Consumes.declareLocal d.name d.ty).afterNothing fun v s₃ => ?_
    refine (Consumes.initializer v d.name.loc).bind fun init s₄ => ?_
    exact (ih s₄ false).andNothing fun more s₅ => .pure _

theorem Consumes.declaration {s : State} :
    Consumes s Form.declaration.language Parser.declaration := by
  rw [Form.language_eq]
  simp only [Form.rule, Pattern.row, Pattern.language_both, Pattern.language_optional,
    Pattern.language_listOf, Pattern.language_text, Pattern.language_form]
  refine typeName.bind fun base s₁ => get ?_
  exact (declarators_consume base _ s₁ true).andNothing fun inits s₂ => pure _

/-- The tokens that the readers of statements take, with this budget. -/
structure StatementForms (budget : Nat) : Prop where
  statement (s : State) : Consumes s Form.statement.language (statement budget)
  items (s : State) : Consumes s Form.compound.language (items budget)

/-- Skipping tokens behind a rejection. -/
theorem Consumes.skip {s : State} (starts : Token → Bool) (start : List Token) :
    Consumes s ⊤ (modify fun s => { s with rest := resume starts start s.rest }) := by
  intro u s' h
  cases h
  obtain ⟨front, hfront⟩ := resume_suffix starts start s.rest
  exact fun hclean => ⟨hclean, rfl, front, trivial, hfront.symm⟩

namespace StatementForms

variable {s : State} {budget : Nat}

/-- A `for` whose first part is already read. -/
theorem forFrom (h : StatementForms budget) (init : Stmt) :
    Consumes s ((Form.expression.language + 1) * (mark ";" * ((Form.expression.language + 1) *
        (mark ")" * Form.statement.language))))
      (do
        let cond ← expressionUnless ";"
        expect ";"
        let step ← expressionUnless ")"
        expect ")"
        let body ← Parser.statement budget
        return Stmt.loop (some init) cond step body) := by
  refine (Consumes.expressionUnless ";").bind fun cond s₁ => (Consumes.expect ";").bind fun _ s₂ => ?_
  refine (Consumes.expressionUnless ")").bind fun step s₃ => (Consumes.expect ")").bind fun _ s₄ => ?_
  exact (h.statement s₄).andNothing fun body s₅ => .pure _

theorem statement_succ (h : StatementForms budget) :
    Consumes s Form.statement.language (Parser.statement (budget + 1)) := by
  rw [Form.language_eq]
  simp only [Form.rule, Pattern.row, Pattern.choice, Pattern.language_both, Pattern.language_either,
    Pattern.language_optional, Pattern.language_text, Pattern.language_form]
  unfold Parser.statement
  refine .acceptElse (fun s₁ => ?_) ?_
  · exact (Consumes.expressionUnless ";").bind fun value s₂ =>
      (Consumes.expect ";").andNothing fun _ s₃ => .pure _
  refine .acceptElse (fun s₁ => ?_) ?_
  · refine (Consumes.expect "(").bind fun _ s₂ => Consumes.expression.bind fun cond s₃ => ?_
    refine (Consumes.expect ")").bind fun _ s₄ => (h.statement s₄).bind fun onTrue s₅ => ?_
    refine .acceptElse (fun s₆ => ?_) (.pure _)
    exact (h.statement s₆).andNothing fun onFalse s₇ => .pure _
  refine .acceptElse (fun s₁ => ?_) ?_
  · refine (Consumes.expect "(").bind fun _ s₂ => .sees ?_
    dsimp only
    split
    · exact (Consumes.declaration.bind fun init s₃ => h.forFrom init).mono
        (mul_le_mul_left le_self_add _)
    · exact (Consumes.expressionStatement.bind fun init s₃ => h.forFrom init).mono
        (mul_le_mul_left le_add_self _)
  refine .acceptElse (fun s₁ => ?_) ?_
  · refine (Consumes.expect "(").bind fun _ s₂ => Consumes.expression.bind fun cond s₃ => ?_
    exact (Consumes.expect ")").bind fun _ s₄ => (h.statement s₄).andNothing fun body s₅ => .pure _
  exact .acceptElse (fun s₁ => (h.items s₁).andNothing fun stmts s₂ => .pure _)
    Consumes.expressionStatement

theorem items_succ (h : StatementForms budget) :
    Consumes s Form.compound.language (Parser.items (budget + 1)) := by
  have hcompound : Form.compound.language = mark "\x7d" * 1 +
      (Form.declaration.language + Form.statement.language) * Form.compound.language := by
    rw [Form.language_eq]
    simp only [Form.rule, Pattern.row, Pattern.choice, Pattern.language_both, Pattern.language_either,
      Pattern.language_many, Pattern.language_text, Pattern.language_form]
    rw [mul_one, repeat_then]
  rw [hcompound]
  unfold Parser.items
  refine .acceptElse (fun s₁ => .pure []) (.atEnd ?_)
  split
  · exact .here (.reject _ _)
  refine .get (.current (.attempt ?_ (fun stmt s₁ => ?_) fun r s₁ => ?_))
  · split
    · exact Consumes.declaration.mono le_self_add
    · exact (h.statement s).mono le_add_self
  · exact (h.items s₁).andNothing fun more s₂ => .pure _
  · -- The rejection is recorded, so no end of the block is without an error.
    have hread := (Consumes.report r (s := s₁)).bind fun _ s₂ =>
      (Consumes.skip startsItem s.rest).bind fun _ s₃ => h.items s₃
    rwa [zero_mul] at hread

end StatementForms

theorem statementForms (budget : Nat) : StatementForms budget := by
  induction budget with
  | zero => constructor <;> intros <;> intro a s' h <;> cases h
  | succ budget ih => exact ⟨fun s => ih.statement_succ, fun s => ih.items_succ⟩

/-- The items of a block and its closing brace. -/
theorem Consumes.block {s : State} : Consumes s Form.compound.language Parser.block :=
  get (((statementForms _).items s).andNothing fun _ _ => pure _)

end Parser

end WordC.Parse
