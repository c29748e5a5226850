import WordC.Proofs.ReadExpression

/-!
# Reading declarations and statements under a discipline

Declarators give types of the right shape and declare locals, statements give good trees. A block
goes on behind every item that is rejected, so what it drops matters: at least one token, and only
from the front (`resume_suffix`, `length_resume_lt`).

* `Yields.declarator`, `Yields.declaration`: what is declared has the right shape.
* `StatementSpecs`, `statementSpecs`: with `r` tokens left, a budget of `4 * r` and a constant
  suffices for a statement and for a block.
* `Yields.block`: a block is read within the tokens that are left.
-/
namespace WordC.Parse

/-! ## Where reading resumes -/

theorem seek_suffix (starts : Token → Bool) (last : Option Token) (ts : List Token) :
    seek starts last ts <:+ ts := by
  induction ts generalizing last with
  | nil => exact List.suffix_refl _
  | cons t ts ih =>
    unfold seek
    split
    · exact List.suffix_refl _
    · exact (ih (some t)).trans (List.suffix_cons t ts)

theorem resume_suffix (starts : Token → Bool) (start rest : List Token) :
    resume starts start rest <:+ rest := by
  unfold resume
  split
  · exact (seek_suffix _ _ _).trans (List.tail_suffix _)
  · exact seek_suffix _ _ _

/-- At least one token is dropped. -/
theorem length_resume_lt (starts : Token → Bool) {start rest : List Token} (h : rest <:+ start)
    (hstart : start ≠ []) : (resume starts start rest).length < start.length := by
  have hpos := List.length_pos_iff.2 hstart
  have hle := h.length_le
  unfold resume
  split
  · rename_i heq
    have hseek := (seek_suffix starts rest.head? rest.tail).length_le
    rw [List.length_tail] at hseek
    omega
  · have hseek := (seek_suffix starts (consumed start rest).getLast? rest).length_le
    omega

namespace Discipline

/-- Every one of the trees is good. -/
def Trees (D : Discipline) (s : State) (es : List Expr) : Prop := ∀ e ∈ es, D.Tree s e

section

variable {D : Discipline} {s s' : State}

theorem Trees.grows {es : List Expr} (h : D.Trees s es) (hgrows : s.Grows s') : D.Trees s' es :=
  fun e he => D.grows (h e he) hgrows

theorem Trees.nil : D.Trees s [] := List.forall_mem_nil _

theorem Trees.append {es es' : List Expr} (h : D.Trees s es) (h' : D.Trees s es') :
    D.Trees s (es ++ es') :=
  List.forall_mem_append.2 ⟨h, h'⟩

theorem Trees.cons {e : Expr} {es : List Expr} (h : D.Tree s e) (h' : D.Trees s es) :
    D.Trees s (e :: es) :=
  List.forall_mem_cons.2 ⟨h, h'⟩

/-! ## Declarators -/

theorem Yields.pointers {ty : Ty} (hs : D.Inv s) (hty : D.Shape ty) :
    D.Yields s (fun ty' _ => D.Shape ty') ((Parser.pointers ty).run s) := by
  have hfrom : ∀ (ts : List Token) (ty : Ty), D.Shape ty →
      D.Shape (pointersFrom ty ts).1 ∧ (pointersFrom ty ts).2 <:+ ts := by
    intro ts
    induction ts with
    | nil => intro ty hty; exact ⟨hty, List.suffix_refl _⟩
    | cons t ts ih =>
      intro ty hty
      unfold pointersFrom
      split
      · obtain ⟨hshape, hsuffix⟩ := ih (.ptr ty) (D.ptr hty)
        exact ⟨hshape, hsuffix.trans (List.suffix_cons t ts)⟩
      · exact ⟨hty, List.suffix_refl _⟩
  obtain ⟨hshape, hsuffix⟩ := hfrom s.rest ty hty
  exact ⟨D.read hs hsuffix, .read hsuffix, hshape⟩

theorem arrayOf_yields {base : Ty} {len : Int} {loc : Loc} (hs : D.Inv s) (hbase : D.Shape base)
    (hlen : D.Value len) :
    D.Yields s (fun ty _ => D.Shape ty) ((Parser.arrayOf base len loc).run s) := by
  unfold Parser.arrayOf
  cases hsize : base.size with
  | error fault => exact D.size_fault hbase hsize
  | ok size =>
    cases hbytes : Word.mul size len with
    | error fault =>
      simp only [Parser.ofFault, Parser.run_bind, Parser.run_pure, Outcome.andThen_ok, hbytes]
      exact Yields.reject hs
    | ok bytes =>
      simp only [Parser.ofFault, Parser.run_bind, Parser.run_pure, Outcome.andThen_ok, hbytes]
      exact Yields.pure hs (D.array hbase hlen hsize hbytes)

theorem lengths_yields {ty : Ty} (hty : D.Shape ty) (budget : Nat) : ∀ s, D.Inv s →
    s.rest.length + 1 ≤ budget →
    D.Yields s (fun ty' _ => D.Shape ty') ((Parser.lengths budget ty).run s) := by
  induction budget with
  | zero => intro s _ hb; omega
  | succ budget ih =>
    intro s hs hb
    unfold Parser.lengths
    refine Yields.acceptElse hs (fun s₁ hs₁ _ hlen₁ => ?_) (Yields.pure hs hty)
    rw [Parser.run_here_bind]
    refine Yields.bind (Yields.number hs₁) ?_
    intro len s₂ hs₂ _ h₂
    obtain ⟨hlen, hlen₂⟩ := h₂
    refine Yields.bind (Yields.expect "]" hs₂) ?_
    intro _ s₃ hs₃ _ hlen₃
    refine Yields.bind (ih s₃ hs₃ (by omega)) ?_
    intro element s₄ hs₄ _ helement
    exact arrayOf_yields hs₄ helement hlen

theorem Yields.suffixes {ty : Ty} (hs : D.Inv s) (hty : D.Shape ty) :
    D.Yields s (fun ty' _ => D.Shape ty') ((Parser.suffixes ty).run s) := by
  unfold Parser.suffixes
  rw [Parser.run_get_bind]
  exact lengths_yields hty _ s hs (Nat.le_refl _)

theorem Yields.typeName (hs : D.Inv s) :
    D.Yields s (fun ty s' => D.Shape ty ∧ s'.rest.length < s.rest.length)
      (Parser.typeName.run s) := by
  unfold Parser.typeName
  refine Yields.bind (Yields.expect "int" hs) ?_
  intro _ s₁ hs₁ _ hlen₁
  exact Yields.pure hs₁ ⟨D.int, hlen₁⟩

theorem Yields.declarator {base : Ty} (hs : D.Inv s) (hbase : D.Shape base) :
    D.Yields s
      (fun d s' => D.Name d.name.text ∧ D.Shape d.ty ∧ s'.rest.length < s.rest.length)
      ((Parser.declarator base).run s) := by
  unfold Parser.declarator
  refine Yields.bind (Yields.pointers hs hbase) ?_
  intro pointed s₁ hs₁ hgrows₁ hpointed
  refine Yields.bind (Yields.identifier hs₁) ?_
  intro name s₂ hs₂ _ h₂
  obtain ⟨hname, hlen₂⟩ := h₂
  refine Yields.bind (Yields.suffixes hs₂ hpointed) ?_
  intro ty s₃ hs₃ hgrows₃ hty
  have := hgrows₁.length_le
  have := hgrows₃.length_le
  exact Yields.pure hs₃ ⟨hname, hty, by omega⟩

theorem Yields.declareLocal {name : Parser.Name} {ty : Ty} (hs : D.Inv s) (hname : D.Name name.text)
    (hty : D.Shape ty) :
    D.Yields s (fun v s' => s'.var? v.name = some (.frame v) ∧ s'.rest = s.rest)
      ((Parser.declareLocal name ty).run s) := by
  unfold Parser.declareLocal
  rw [Parser.run_get_bind]
  dsimp only
  split
  · exact Yields.reject hs
  rename_i hnew
  rw [Bool.not_eq_true, Option.isSome_eq_false_iff, Option.isNone_iff_eq_none] at hnew
  cases hsize : ty.size with
  | error fault => exact D.size_fault hty hsize
  | ok size =>
    simp only [Parser.ofFault, Parser.run_bind, Parser.run_pure, Outcome.andThen_ok]
    split
    · exact Yields.reject hs
    rename_i total htotal
    split
    · rename_i hframe
      cases hoffset : Word.neg total with
      | error fault => exact D.offset_fault hs hty hsize htotal hframe hoffset
      | ok offset =>
        refine ⟨D.declareLocal hs hname hty hnew hsize htotal hframe hoffset, .declare s _ _, ?_, rfl⟩
        simp only [Scope.find?] at hnew
        simp [State.var?, Scope.find?, List.find?_append, hnew]
    · exact Yields.reject hs

/-! ## Declarations -/

theorem Yields.initializer {v : Local} {loc : Loc} (hs : D.Inv s)
    (hv : s.var? v.name = some (.frame v)) :
    D.Yields s (fun stmts s' => D.Trees s' (Stmt.rootsAll stmts))
      ((Parser.initializer v loc).run s) := by
  unfold Parser.initializer
  rw [Parser.run_here_bind]
  refine Yields.acceptElse hs (fun s₁ hs₁ hgrows₁ _ => ?_) (Yields.pure hs Trees.nil)
  refine Yields.bind (Yields.expression hs₁) ?_
  intro value s₂ hs₂ hgrows₂ h₂
  have htarget : D.Tree s₂ (.mkVar (.frame v) loc) :=
    D.grows (D.var hs hv) (hgrows₁.trans hgrows₂)
  have hassign : D.Yields s₂ (fun e s' => D.Tree s' e) ((Parser.ofRejection
      (Expr.mkAssign (.mkVar (.frame v) loc) value s.current.loc)).run s₂) :=
    Yields.ofRejection hs₂ fun e he => D.assign htarget h₂.1 rfl he
  refine Yields.bind hassign ?_
  intro node s₃ hs₃ _ hnode
  exact Yields.pure hs₃ (Trees.cons hnode Trees.nil)

theorem Yields.separator (first : Bool) (hs : D.Inv s) :
    D.Yields s (fun _ _ => True) ((Parser.separator first).run s) := by
  unfold Parser.separator
  split
  · exact Yields.pure hs trivial
  · exact (Yields.expect "," hs).mono fun _ _ _ _ _ => trivial

theorem rootsAll_append (ss ts : List Stmt) :
    Stmt.rootsAll (ss ++ ts) = Stmt.rootsAll ss ++ Stmt.rootsAll ts := by
  induction ss with
  | nil => rfl
  | cons s ss ih => simp only [List.cons_append, Stmt.rootsAll, ih, List.append_assoc]

theorem declarators_yields {base : Ty} (hbase : D.Shape base) (budget : Nat) : ∀ s first, D.Inv s →
    s.rest.length + 1 ≤ budget →
    D.Yields s (fun stmts s' => D.Trees s' (Stmt.rootsAll stmts))
      ((Parser.declarators budget base first).run s) := by
  induction budget with
  | zero => intro s _ _ hb; omega
  | succ budget ih =>
    intro s first hs hb
    unfold Parser.declarators
    refine Yields.acceptElse hs (fun s₁ hs₁ _ _ => Yields.pure hs₁ Trees.nil) ?_
    refine Yields.bind (Yields.separator first hs) ?_
    intro _ s₁ hs₁ hgrows₁ _
    refine Yields.bind (Yields.declarator hs₁ hbase) ?_
    intro d s₂ hs₂ _ h₂
    obtain ⟨hname, hty, hlen₂⟩ := h₂
    refine Yields.bind (Yields.declareLocal hs₂ hname hty) ?_
    intro v s₃ hs₃ _ h₃
    obtain ⟨hv, hrest₃⟩ := h₃
    refine Yields.bind (Yields.initializer hs₃ hv) ?_
    intro init s₄ hs₄ hgrows₄ hinit
    have := hgrows₁.length_le
    have := hgrows₄.length_le
    refine Yields.bind (ih s₄ false hs₄ (by rw [hrest₃] at this; omega)) ?_
    intro more s₅ hs₅ hgrows₅ hmore
    refine Yields.pure hs₅ ?_
    rw [rootsAll_append]
    exact (hinit.grows hgrows₅).append hmore

/-- A statement is read, and at least one token. -/
def ReadsStmt (D : Discipline) (s : State) : Outcome Stmt → Prop :=
  D.Yields s fun stmt s' => D.Trees s' stmt.roots ∧ s'.rest.length < s.rest.length

theorem Yields.declaration (hs : D.Inv s) : D.ReadsStmt s (Parser.declaration.run s) := by
  unfold Parser.declaration
  refine Yields.bind (Yields.typeName hs) ?_
  intro base s₁ hs₁ _ h₁
  obtain ⟨hbase, hlen₁⟩ := h₁
  rw [Parser.run_get_bind]
  refine Yields.bind (declarators_yields hbase _ s₁ true hs₁ (Nat.le_refl _)) ?_
  intro inits s₂ hs₂ hgrows₂ hinits
  have := hgrows₂.length_le
  exact Yields.pure hs₂ ⟨hinits, by omega⟩

/-! ## Statements -/

theorem Yields.expressionStatement (hs : D.Inv s) :
    D.ReadsStmt s (Parser.expressionStatement.run s) := by
  unfold Parser.expressionStatement
  refine Yields.acceptElse hs (fun s₁ hs₁ _ hlen₁ => Yields.pure hs₁ ⟨Trees.nil, hlen₁⟩) ?_
  refine Yields.bind (Yields.expression hs) ?_
  intro e s₁ hs₁ _ h₁
  obtain ⟨he, hlen₁⟩ := h₁
  refine Yields.bind (Yields.expect ";" hs₁) ?_
  intro _ s₂ hs₂ hgrows₂ hlen₂
  exact Yields.pure hs₂ ⟨Trees.cons (D.grows he hgrows₂) Trees.nil, by omega⟩

theorem Yields.expressionUnless (text : String) (hs : D.Inv s) :
    D.Yields s (fun e s' => D.Trees s' e.toList) ((Parser.expressionUnless text).run s) := by
  unfold Parser.expressionUnless
  rw [Parser.run_sees_bind]
  split
  · exact Yields.pure hs Trees.nil
  · refine Yields.bind (Yields.expression hs) ?_
    intro e s₁ hs₁ _ h₁
    exact Yields.pure hs₁ (Trees.cons h₁.1 Trees.nil)

structure StatementSpecs (D : Discipline) (budget : Nat) : Prop where
  statement (s : State) : D.Inv s → 4 * s.rest.length + 1 ≤ budget →
    D.ReadsStmt s ((Parser.statement budget).run s)
  items (s : State) : D.Inv s → 4 * s.rest.length + 2 ≤ budget →
    D.Yields s (fun stmts s' => D.Trees s' (Stmt.rootsAll stmts)) ((Parser.items budget).run s)

/-- What follows a keyword is shorter than what the keyword starts. -/
theorem Yields.behind {s₁ : State} {o : Outcome Stmt} (hlen : s₁.rest.length < s.rest.length)
    (h : D.Yields s₁ (fun stmt s' => D.Trees s' stmt.roots) o) :
    D.Yields s₁ (fun stmt s' => D.Trees s' stmt.roots ∧ s'.rest.length < s.rest.length) o := by
  refine h.mono ?_
  intro stmt s' _ hgrows htrees
  have := hgrows.length_le
  exact ⟨htrees, by omega⟩

/-- `return` is already read. -/
theorem return_yields (hs : D.Inv s) :
    D.Yields s (fun stmt s' => D.Trees s' stmt.roots)
      ((do
        let value ← Parser.expressionUnless ";"
        Parser.expect ";"
        return Stmt.ret value : Parser Stmt).run s) := by
  refine Yields.bind (Yields.expressionUnless ";" hs) ?_
  intro value s₁ hs₁ _ hvalue
  refine Yields.bind (Yields.expect ";" hs₁) ?_
  intro _ s₂ hs₂ hgrows₂ _
  exact Yields.pure hs₂ (hvalue.grows hgrows₂)

/-- A condition in parentheses. -/
theorem Yields.condition {β : Type} {post : β → State → Prop} {f : Expr → Parser β} (hs : D.Inv s)
    (hf : ∀ cond s', D.Inv s' → s'.rest.length < s.rest.length → D.Tree s' cond →
      D.Yields s' post ((f cond).run s')) :
    D.Yields s post
      ((do
        Parser.expect "("
        let cond ← Parser.expression
        Parser.expect ")"
        f cond : Parser β).run s) := by
  refine Yields.bind (Yields.expect "(" hs) ?_
  intro _ s₁ hs₁ _ hlen₁
  refine Yields.bind (Yields.expression hs₁) ?_
  intro cond s₂ hs₂ _ h₂
  obtain ⟨hcond, hlen₂⟩ := h₂
  refine Yields.bind (Yields.expect ")" hs₂) ?_
  intro _ s₃ hs₃ hgrows₃ hlen₃
  exact hf cond s₃ hs₃ (by omega) (D.grows hcond hgrows₃)

/-- The branches of a conditional. -/
theorem StatementSpecs.branches {budget : Nat} (h : D.StatementSpecs budget) {cond : Expr}
    (hs : D.Inv s) (hb : 4 * s.rest.length + 1 ≤ budget) (hcond : D.Tree s cond) :
    D.Yields s (fun stmt s' => D.Trees s' stmt.roots)
      ((do
        let onTrue ← Parser.statement budget
        if ← Parser.accept "else" then
          let onFalse ← Parser.statement budget
          return Stmt.ite cond onTrue (some onFalse)
        else
          return Stmt.ite cond onTrue none : Parser Stmt).run s) := by
  refine Yields.bind (h.statement s hs hb) ?_
  intro onTrue s₁ hs₁ hgrows₁ h₁
  obtain ⟨htrue, hlen₁⟩ := h₁
  have hcond₁ := D.grows hcond hgrows₁
  refine Yields.acceptElse hs₁ (fun s₂ hs₂ hgrows₂ hlen₂ => ?_) ?_
  · refine Yields.bind (h.statement s₂ hs₂ (by omega)) ?_
    intro onFalse s₃ hs₃ hgrows₃ h₃
    have hgrows := hgrows₂.trans hgrows₃
    refine Yields.pure hs₃ ?_
    simp only [Stmt.roots]
    exact Trees.cons (D.grows hcond₁ hgrows) ((htrue.grows hgrows).append h₃.1)
  · refine Yields.pure hs₁ ?_
    simp only [Stmt.roots]
    exact Trees.cons hcond₁ htrue

/-- A `for` whose first part is already read. -/
theorem StatementSpecs.forFrom {budget : Nat} (h : D.StatementSpecs budget) {init : Stmt}
    (hs : D.Inv s) (hb : 4 * s.rest.length + 1 ≤ budget) (hinit : D.Trees s init.roots) :
    D.Yields s (fun stmt s' => D.Trees s' stmt.roots)
      ((do
        let cond ← Parser.expressionUnless ";"
        Parser.expect ";"
        let step ← Parser.expressionUnless ")"
        Parser.expect ")"
        let body ← Parser.statement budget
        return Stmt.loop (some init) cond step body : Parser Stmt).run s) := by
  refine Yields.bind (Yields.expressionUnless ";" hs) ?_
  intro cond s₁ hs₁ hgrows₁ hcond
  refine Yields.bind (Yields.expect ";" hs₁) ?_
  intro _ s₂ hs₂ hgrows₂ hlen₂
  refine Yields.bind (Yields.expressionUnless ")" hs₂) ?_
  intro step s₃ hs₃ hgrows₃ hstep
  refine Yields.bind (Yields.expect ")" hs₃) ?_
  intro _ s₄ hs₄ hgrows₄ hlen₄
  have := hgrows₁.length_le
  have := hgrows₃.length_le
  refine Yields.bind (h.statement s₄ hs₄ (by omega)) ?_
  intro body s₅ hs₅ hgrows₅ h₅
  have hgrows₃₅ := hgrows₄.trans hgrows₅
  have hgrows₁₅ := (hgrows₂.trans hgrows₃).trans hgrows₃₅
  refine Yields.pure hs₅ ?_
  simp only [Stmt.roots]
  exact (((hinit.grows (hgrows₁.trans hgrows₁₅)).append (hcond.grows hgrows₁₅)).append h₅.1).append
    (hstep.grows hgrows₃₅)

theorem StatementSpecs.statement_succ {budget : Nat} (h : D.StatementSpecs budget) (hs : D.Inv s)
    (hb : 4 * s.rest.length + 1 ≤ budget + 1) :
    D.ReadsStmt s ((Parser.statement (budget + 1)).run s) := by
  unfold Parser.statement
  refine Yields.acceptElse hs (fun s₁ hs₁ _ hlen₁ => (return_yields hs₁).behind hlen₁) ?_
  refine Yields.acceptElse hs (fun s₁ hs₁ _ hlen₁ => ?_) ?_
  · refine Yields.behind hlen₁ (Yields.condition hs₁ ?_)
    intro cond s₂ hs₂ hlen₂ hcond
    exact h.branches hs₂ (by omega) hcond
  refine Yields.acceptElse hs (fun s₁ hs₁ _ hlen₁ => ?_) ?_
  · refine Yields.behind hlen₁ (Yields.bind (Yields.expect "(" hs₁) ?_)
    intro _ s₂ hs₂ _ hlen₂
    rw [Parser.run_sees_bind]
    dsimp only
    split
    · refine Yields.bind (Yields.declaration hs₂) ?_
      intro init s₃ hs₃ _ h₃
      exact h.forFrom hs₃ (by omega) h₃.1
    · refine Yields.bind (Yields.expressionStatement hs₂) ?_
      intro init s₃ hs₃ _ h₃
      exact h.forFrom hs₃ (by omega) h₃.1
  refine Yields.acceptElse hs (fun s₁ hs₁ _ hlen₁ => ?_) ?_
  · refine Yields.behind hlen₁ (Yields.condition hs₁ ?_)
    intro cond s₂ hs₂ hlen₂ hcond
    refine Yields.bind (h.statement s₂ hs₂ (by omega)) ?_
    intro body s₃ hs₃ hgrows₃ h₃
    refine Yields.pure hs₃ ?_
    simp only [Stmt.roots, Option.toList, List.append_nil]
    exact Trees.cons (D.grows hcond hgrows₃) h₃.1
  refine Yields.acceptElse hs (fun s₁ hs₁ _ hlen₁ => ?_) (Yields.expressionStatement hs)
  · refine Yields.behind hlen₁ (Yields.bind (h.items s₁ hs₁ (by omega)) ?_)
    intro stmts s₂ hs₂ _ hstmts
    exact Yields.pure hs₂ hstmts

theorem StatementSpecs.items_succ {budget : Nat} (h : D.StatementSpecs budget) (hs : D.Inv s)
    (hb : 4 * s.rest.length + 2 ≤ budget + 1) :
    D.Yields s (fun stmts s' => D.Trees s' (Stmt.rootsAll stmts))
      ((Parser.items (budget + 1)).run s) := by
  unfold Parser.items
  refine Yields.acceptElse hs (fun s₁ hs₁ _ _ => Yields.pure hs₁ Trees.nil) ?_
  rw [Parser.run_atEnd_bind]
  split
  · exact Yields.reject hs
  rename_i hrest
  rw [Parser.run_get_bind]
  dsimp only
  rw [Parser.run_current_bind]
  have hitem : D.ReadsStmt s ((if startsObject s.current then Parser.declaration
      else Parser.statement budget).run s) := by
    split
    · exact Yields.declaration hs
    · exact h.statement s hs (by omega)
  refine Yields.bind hitem.attempt ?_
  intro item s₁ hs₁ hgrows₁ hread
  split
  · rename_i stmt
    obtain ⟨hstmt, hlen₁⟩ := hread stmt rfl
    refine Yields.bind (h.items s₁ hs₁ (by omega)) ?_
    intro more s₂ hs₂ hgrows₂ hmore
    refine Yields.pure hs₂ ?_
    simp only [Stmt.rootsAll]
    exact (hstmt.grows hgrows₂).append hmore
  · rename_i r
    -- The rejected item is recorded, and at least one of its tokens is skipped.
    refine Yields.bind (Yields.record hs₁ [.rejected r]) ?_
    intro _ s₂ hs₂ hgrows₂ hrest₂
    have hsuffix := resume_suffix startsItem s.rest s₂.rest
    have hlen := length_resume_lt startsItem (hgrows₁.trans hgrows₂).rest (by simpa using hrest)
    refine Yields.since (.read hsuffix) (h.items _ (D.read hs₂ hsuffix) ?_)
    dsimp only
    omega

theorem statementSpecs (D : Discipline) (budget : Nat) : D.StatementSpecs budget := by
  induction budget with
  | zero =>
    constructor
    all_goals
      intros
      omega
  | succ budget ih =>
    exact ⟨fun s hs hb => ih.statement_succ hs hb, fun s hs hb => ih.items_succ hs hb⟩

/-- A block is read. -/
theorem Yields.block (hs : D.Inv s) :
    D.Yields s (fun stmt s' => D.Trees s' stmt.roots) (Parser.block.run s) := by
  unfold Parser.block
  rw [Parser.run_get_bind]
  refine Yields.bind ((D.statementSpecs _).items s hs ?_) ?_
  · unfold Parser.blockBudget
    omega
  · intro stmts s₁ hs₁ _ hstmts
    exact Yields.pure hs₁ hstmts

end

end Discipline

end WordC.Parse
