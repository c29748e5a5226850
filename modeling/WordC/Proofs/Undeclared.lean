import WordC.Proofs.PendingCalls
import WordC.Proofs.Rounds

/-!
# Functions that are nowhere declared

Only at the end of the text is there a warning about a call that waited, if its function is still
unknown. All readers keep the balance between the calls in trees and the calls that wait, so every call
that is left in a function is warned about.

* `Routine.reader_queues`, `Routine.statement_queues`: the recursive readers keep the balance.
* `Parser.Queues.objects`: and so does the reader of a whole text.
* `Diagnostic.undeclared`: the warning, as it is worded.
* `parse_undeclared`: which functions are warned about, and how often at least.
-/
namespace WordC

namespace Parse

/-! ## Recursive readers -/

namespace Routine

/-- The calls in what a routine builds on. -/
def held (site : Site) : Routine → Nat
  | chainFrom _ lhs => site.count lhs
  | subscripts base => site.count base
  | _ => 0

/-- The calls in what a routine returns. -/
def made (site : Site) : (r : Routine) → r.Result → Nat
  | assign, e | chain _, e | operand _, e | chainFrom _ _, e | unary, e | subscripted, e
  | subscripts _, e | primary, e => site.count e
  | arguments, es => site.calls es
  | lengths _, _ => 0
  | statement, stmt => site.calls stmt.roots
  | items, stmts => site.calls (Stmt.rootsAll stmts)

/-- The calls that a routine makes of others of its group, and of itself, keep the balance. -/
def CallsQueue (site : Site) (call : (r : Routine) → Parser r.Result) (g : Group) : Prop :=
  ∀ r, r.group = g → (call r).Queues site (r.held site) (r.made site)

variable {site : Site} {call : (r : Routine) → Parser r.Result}

open Parser.Queues

theorem queues_assign (h : CallsQueue site call .expression) :
    (body call .assign).Queues site 0 site.count := by
  refine (h (.chain .equality) rfl).bind fun target => here.bind fun loc => ?_
  refine acceptElse (ite ?_ reject) (pure (Nat.le_refl _))
  refine (carry (h .assign rfl) (site.count target)).bind fun value => ofRejection fun e he => ?_
  exact Nat.le_of_eq (Site.count_mkAssign he)

theorem queues_chainFrom (h : CallsQueue site call .expression) (level : Level) (lhs : Expr) :
    (body call (.chainFrom level lhs)).Queues site (site.count lhs) site.count := by
  refine current.bind fun token => ?_
  split
  · refine advance.bind fun _ => (carry (h (.operand level) rfl) (site.count lhs)).bind fun rhs => ?_
    refine bind (ofStop fun e he => ?_) fun node => h (.chainFrom level node) rfl
    exact Nat.le_of_eq (Site.count_build he)
  · exact pure (Nat.le_refl _)

/-- An operand and the operator in front of it. -/
theorem queues_prefixed (h : CallsQueue site call .expression) (op : UnaryOp) (loc : Loc) :
    (call .unary >>= fun operand => Parser.ofRejection (Expr.mkUnary op operand loc)).Queues site 0
      site.count :=
  (h .unary rfl).bind fun _ => ofRejection fun _ he => Nat.le_of_eq (Site.count_mkUnary he)

theorem queues_unary (h : CallsQueue site call .expression) :
    (body call .unary).Queues site 0 site.count := by
  refine here.bind fun loc => acceptElse (h .unary rfl) (acceptElse (queues_prefixed h .neg loc) ?_)
  refine acceptElse ?_ (acceptElse (queues_prefixed h .deref loc) (h .subscripted rfl))
  refine (h .unary rfl).bind fun operand => ite ?_ reject
  exact ofRejection fun e he => Nat.le_of_eq (Site.count_mkUnary he)

theorem queues_subscripts (h : CallsQueue site call .expression) (base : Expr) :
    (body call (.subscripts base)).Queues site (site.count base) site.count := by
  refine here.bind fun loc => acceptElse ?_ (pure (Nat.le_refl _))
  refine (carry (h .assign rfl) (site.count base)).bind fun index => (expect "]").bind fun _ => ?_
  have haddress : (Parser.ofStop (Operator.build .add base index loc)).Queues site
      (site.count base + site.count index) site.count :=
    ofStop fun e he => Nat.le_of_eq (Site.count_build he)
  refine haddress.bind fun address => ?_
  have helement : (Parser.ofRejection (Expr.mkUnary .deref address loc)).Queues site
      (site.count address) site.count :=
    ofRejection fun e he => Nat.le_of_eq (Site.count_mkUnary he)
  exact helement.bind fun element => h (.subscripts element) rfl

theorem queues_primary (h : CallsQueue site call .expression) :
    (body call .primary).Queues site 0 site.count := by
  refine current.bind fun token => acceptElse ?_ (acceptElse ?_ (ite ?_ (ite ?_ reject)))
  · exact (h .assign rfl).bind fun inner => (expect ")").bind fun _ => pure (Nat.le_refl _)
  · -- The calls in the operand of `sizeof` wait, but they are in no tree.
    exact (h .unary rfl).bind fun operand => (ofFault _).bind fun size => pure (Nat.zero_le _)
  · refine advance.bind fun _ => acceptElse (acceptElse ?_ ?_) (variableOf token)
    · exact callOf token.lexeme [] token.loc
    · exact (h .arguments rfl).bind fun args => callOf token.lexeme args token.loc
  · exact number.bind fun value => pure (Nat.le_refl 0)

theorem queues_arguments (h : CallsQueue site call .expression) :
    (body call .arguments).Queues site 0 site.calls := by
  refine (h .assign rfl).bind fun arg => acceptElse (pure ?_) ((expect ",").bind fun _ => ?_)
  · exact Nat.le_of_eq (site.calls_cons arg [])
  · refine (carry (h .arguments rfl) (site.count arg)).bind fun more => pure ?_
    exact Nat.le_of_eq (site.calls_cons arg more)

/-- Readers of expressions keep the balance, with every budget. -/
theorem reader_queues (b : Nat) : CallsQueue site (fun r => r.reader b) .expression := by
  induction b with
  | zero => intro r _ s; cases r <;> trivial
  | succ b ih =>
    intro r hr
    show (r.reader (b + 1)).Queues site (r.held site) (r.made site)
    rw [reader_succ]
    cases r with
    | assign => exact queues_assign ih
    | chain level => exact (ih (.operand level) rfl).bind fun first => ih (.chainFrom level first) rfl
    | operand level =>
      cases level with
      | equality => exact ih (.chain .relational) rfl
      | relational => exact ih (.chain .additive) rfl
      | additive => exact ih (.chain .multiplicative) rfl
      | multiplicative => exact ih .unary rfl
    | chainFrom level lhs => exact queues_chainFrom ih level lhs
    | unary => exact queues_unary ih
    | subscripted => exact (ih .primary rfl).bind fun first => ih (.subscripts first) rfl
    | subscripts base => exact queues_subscripts ih base
    | primary => exact queues_primary ih
    | arguments => exact queues_arguments ih
    | lengths ty | statement | items => cases hr

end Routine

/-! ## Declarations and statements -/

namespace Parser.Queues

variable {site : Site}

theorem expression : Parser.expression.Queues site 0 site.count :=
  get.bind fun s => Routine.reader_queues (Parser.expressionBudget s.rest.length) .assign rfl

theorem initializer (v : Local) (loc : Loc) :
    (Parser.initializer v loc).Queues site 0 fun stmts => site.calls (Stmt.rootsAll stmts) := by
  refine here.bind fun eqLoc => acceptElse ?_ (pure (Nat.le_refl 0))
  refine expression.bind fun value => ?_
  have hassigned : (Parser.ofRejection (Expr.mkAssign (.mkVar (.frame v) loc) value eqLoc)).Queues site
      (site.count value) site.count := by
    refine ofRejection fun e he => ?_
    exact Nat.le_of_eq (by rw [Site.count_mkAssign he, Site.count_mkVar, Nat.zero_add])
  exact hassigned.bind fun node => pure (Nat.le_of_eq (site.calls_cons node []))

theorem declarators (base : Ty) (budget : Nat) : ∀ first,
    (Parser.declarators budget base first).Queues site 0
      fun stmts => site.calls (Stmt.rootsAll stmts) := by
  induction budget with
  | zero => intro first s; trivial
  | succ budget ih =>
    intro first
    have hseparator : (Parser.separator first).Queues site 0 fun _ => 0 :=
      ite (pure (Nat.le_refl 0)) (expect ",")
    refine acceptElse (pure (Nat.le_refl 0)) (hseparator.bind fun _ => ?_)
    refine (nears (.declarator base)).bind fun d => (nears (.declareLocal d.name d.ty)).bind fun v => ?_
    refine (initializer v d.name.loc).bind fun init => ?_
    refine (carry (ih false) (site.calls (Stmt.rootsAll init))).bind fun more => pure ?_
    exact Nat.le_of_eq (by rw [Discipline.rootsAll_append, Site.calls_append])

theorem declaration : Parser.declaration.Queues site 0 fun stmt => site.calls stmt.roots :=
  (nears .typeName).bind fun base => get.bind fun _ => (declarators base _ true).bind fun _ =>
    pure (Nat.le_refl _)

theorem expressionStatement :
    Parser.expressionStatement.Queues site 0 fun stmt => site.calls stmt.roots := by
  refine acceptElse (pure (Nat.le_refl 0)) (expression.bind fun e => (expect ";").bind fun _ => pure ?_)
  exact Nat.le_of_eq (site.calls_cons e [])

theorem expressionUnless (text : String) :
    (Parser.expressionUnless text).Queues site 0 fun e => site.calls e.toList := by
  refine (sees text).bind fun _ => ite (pure (Nat.le_refl 0)) (expression.bind fun e => pure ?_)
  exact Nat.le_of_eq (site.calls_cons e [])

end Parser.Queues

namespace Routine

variable {site : Site} {call : (r : Routine) → Parser r.Result}

open Parser.Queues

/-- A condition in parentheses. -/
theorem queues_condition {α : Type} {made : α → Nat} {p : Expr → Parser α}
    (h : ∀ cond, (p cond).Queues site (site.count cond) made) :
    (Parser.expect "(" >>= fun _ => Parser.expression >>= fun cond => Parser.expect ")" >>= fun _ =>
      p cond).Queues site 0 made :=
  (expect "(").bind fun _ => expression.bind fun cond => (expect ")").bind fun _ => h cond

/-- A `for` whose first part is already read. -/
theorem queues_forFrom (h : CallsQueue site call .statement) (init : Stmt) :
    (do
      let cond ← Parser.expressionUnless ";"
      Parser.expect ";"
      let step ← Parser.expressionUnless ")"
      Parser.expect ")"
      let body ← call .statement
      return Stmt.loop (some init) cond step body : Parser Stmt).Queues site (site.calls init.roots)
        fun stmt => site.calls stmt.roots := by
  refine (carry (expressionUnless ";") _).bind fun cond => (expect ";").bind fun _ => ?_
  refine (carry (expressionUnless ")") _).bind fun step => (expect ")").bind fun _ => ?_
  refine (carry (h .statement rfl) _).bind fun body => pure ?_
  simp only [Stmt.roots, Site.calls_append, made]
  omega

theorem queues_statement (h : CallsQueue site call .statement) :
    (body call .statement).Queues site 0 fun stmt => site.calls stmt.roots := by
  have hstatement := h .statement rfl
  refine acceptElse ?_ (acceptElse ?_ (acceptElse ?_ (acceptElse ?_ (acceptElse ?_ ?_))))
  · exact (expressionUnless ";").bind fun value => (expect ";").bind fun _ => pure (Nat.le_refl _)
  · refine queues_condition fun cond => (carry hstatement _).bind fun onTrue => acceptElse ?_ (pure ?_)
    · refine (carry hstatement _).bind fun onFalse => pure ?_
      simp only [Stmt.roots, Site.calls_cons, Site.calls_append, made]
      omega
    · exact Nat.le_of_eq (site.calls_cons cond onTrue.roots)
  · refine (expect "(").bind fun _ => (sees "int").bind fun _ => ite ?_ ?_
    · exact declaration.bind fun init => queues_forFrom h init
    · exact expressionStatement.bind fun init => queues_forFrom h init
  · refine queues_condition fun cond => (carry hstatement _).bind fun body => pure ?_
    simp [Stmt.roots, made]
  · exact (h .items rfl).bind fun stmts => pure (Nat.le_refl _)
  · exact expressionStatement

theorem queues_items (h : CallsQueue site call .statement) :
    (body call .items).Queues site 0 fun stmts => site.calls (Stmt.rootsAll stmts) := by
  have hitems := h .items rfl
  refine acceptElse (pure (Nat.le_refl 0)) (atEnd.bind fun _ => ite (here.bind fun _ => reject) ?_)
  refine get.bind fun s => current.bind fun token => ?_
  have hitem : (if startsObject token = true then Parser.declaration else call .statement).Queues site 0
      fun stmt => site.calls stmt.roots := ite declaration (h .statement rfl)
  refine hitem.attempt.bind fun item => ?_
  cases item with
  | ok stmt =>
    refine (carry hitems (site.calls stmt.roots)).bind fun more => pure ?_
    exact Nat.le_of_eq (site.calls_append stmt.roots (Stmt.rootsAll more))
  | error r =>
    -- What waits of a rejected item goes on waiting.
    exact (report r).bind fun _ => bind (modify fun _ => .unchanged rfl) fun _ => hitems

theorem statement_queues (b : Nat) : CallsQueue site (fun r => r.reader b) .statement := by
  induction b with
  | zero => intro r _ s; cases r <;> trivial
  | succ b ih =>
    intro r hr
    show (r.reader (b + 1)).Queues site (r.held site) (r.made site)
    rw [reader_succ]
    cases r with
    | statement => exact queues_statement ih
    | items => exact queues_items ih
    | assign | chain | operand | chainFrom | unary | subscripted | subscripts | primary | arguments
    | lengths => cases hr

end Routine

/-! ## Objects -/

namespace Parser.Queues

variable {site : Site}

theorem block : Parser.block.Queues site 0 fun stmt => site.calls stmt.roots :=
  get.bind fun s => bind (Routine.statement_queues (Parser.blockBudget s.rest.length) .items rfl)
    fun _ => pure (Nat.le_refl _)

theorem prototype (h : Parser.Header) : (Parser.prototype h).Queues site 0 fun _ => 0 := by
  refine get.bind fun _ => ite reject (modify fun s => .sign s fun hunknown => ?_)
  rw [Signatures.find?_declare] at hunknown
  split at hunknown
  · cases hunknown
  · exact hunknown

theorem definition (h : Parser.Header) : (Parser.definition h).Queues site 0 fun _ => 0 := by
  refine get.bind fun _ => ite reject (bind (modify fun s => .sign s fun hunknown => ?_) fun _ => ?_)
  · rw [Signatures.find?_define] at hunknown
    split at hunknown
    · cases hunknown
    · exact hunknown
  · exact (expect "\x7b").bind fun _ => block.bind fun body => modify fun s => .storeFunction s _

theorem function : Parser.function.Queues site 0 fun _ => 0 :=
  (nears .header).bind fun h => acceptElse (prototype h) (definition h)

theorem globalDeclarators (base : Ty) (budget : Nat) : ∀ first,
    (Parser.globalDeclarators budget base first).Queues site 0 fun _ => 0 := by
  induction budget with
  | zero => intro first s; trivial
  | succ budget ih =>
    intro first
    have hseparator : (Parser.separator first).Queues site 0 fun _ => 0 :=
      ite (pure (Nat.le_refl 0)) (expect ",")
    refine acceptElse (pure (Nat.le_refl 0)) (hseparator.bind fun _ => ?_)
    refine (nears (.declarator base)).bind fun d => (sees "=").bind fun _ => ite ?_ ?_
    · exact here.bind fun _ => reject
    · have hdeclare : (Parser.declareGlobal d).Queues site 0 fun _ => 0 :=
        get.bind fun _ => ite reject (modify fun s => .storeGlobal s _)
      exact hdeclare.bind fun _ => ih false

theorem globals : Parser.globals.Queues site 0 fun _ => 0 :=
  (nears .typeName).bind fun base => get.bind fun _ => globalDeclarators base _ true

theorem recovering {p : Parser Unit} {skip : List Token → List Token → List Token}
    (h : p.Queues site 0 fun _ => 0) : (Parser.recovering p skip).Queues site 0 fun _ => 0 := by
  refine get.bind fun s => h.attempt.bind fun result => ?_
  cases result with
  | ok _ => exact pure (Nat.le_refl 0)
  | error r => exact (report r).bind fun _ => modify fun _ => .unchanged rfl

theorem object : Parser.object.Queues site 0 fun _ => 0 := by
  refine bind (modify fun _ => .unchanged rfl) fun _ => get.bind fun s => ite ?_ ?_
  · exact recovering function
  · exact recovering globals

theorem objects (budget : Nat) : (Parser.objects budget).Queues site 0 fun _ => 0 := by
  induction budget with
  | zero => intro s; trivial
  | succ budget ih => exact atEnd.bind fun _ => ite (pure (Nat.le_refl 0)) (object.bind fun _ => ih)

end Parser.Queues

end Parse

/-! ## Warnings -/

/-- The warning about a call of a function that is nowhere declared. -/
def Diagnostic.undeclared (callee : String) (loc : Loc) : Diagnostic :=
  ⟨.warning, loc, "implicit declaration of function '" ++ callee ++ "'"⟩

theorem Caution.implicitDeclaration_message_inj {f callee : String}
    (h : (implicitDeclaration f).message = (implicitDeclaration callee).message) : f = callee := by
  have htext : ("implicit declaration of function '" ++ f ++ "'").toList =
      ("implicit declaration of function '" ++ callee ++ "'").toList := congrArg String.toList h
  rw [String.toList_append, String.toList_append, String.toList_append, String.toList_append] at htext
  exact String.toList_inj.1 (List.append_cancel_left (List.append_cancel_right htext))

/-- The two kinds of warnings differ in their second letter. -/
theorem Caution.message_mismatch_ne {index : Nat} {f callee : String} {expected found : Ty} :
    (argumentMismatch index f expected found).message ≠ (implicitDeclaration callee).message := by
  have hsecond : ∀ {text : String} (more : String) {c : Char}, text.toList[1]? = some c →
      (text ++ more).toList[1]? = some c := by
    intro text more c h
    obtain ⟨hlength, -⟩ := List.getElem?_eq_some_iff.1 h
    rw [String.toList_append, List.getElem?_append_left hlength, h]
  have hmismatch : (argumentMismatch index f expected found).message.toList[1]? = some 'n' := by
    iterate 8 apply hsecond
    decide
  have himplicit : (implicitDeclaration callee).message.toList[1]? = some 'm' := by
    iterate 2 apply hsecond
    decide
  intro h
  rw [h, himplicit] at hmismatch
  cases hmismatch

/-- Nothing else is worded like it. -/
theorem Issue.toDiagnostic_eq_undeclared {issue : Issue} {callee : String} {loc : Loc} :
    issue.toDiagnostic = .undeclared callee loc ↔
      issue = .caution loc (.implicitDeclaration callee) := by
  constructor
  · intro h
    cases issue with
    | lexical l p => cases congrArg Diagnostic.kind h
    | rejected r =>
      have hkind := congrArg Diagnostic.kind h
      simp only [toDiagnostic, Rejection.toFailure] at hkind
      split at hkind <;> cases hkind
    | caution l c =>
      have hloc : l = loc := congrArg Diagnostic.loc h
      have hmessage : c.message = (Caution.implicitDeclaration callee).message :=
        congrArg Diagnostic.message h
      cases c with
      | implicitDeclaration f => rw [hloc, Caution.implicitDeclaration_message_inj hmessage]
      | argumentMismatch index f expected found => exact absurd hmessage Caution.message_mismatch_ne
  · rintro rfl
    rfl

/-- These warnings can be counted among the issues. -/
theorem Issue.count_undeclared (issues : List Issue) (callee : String) (loc : Loc) :
    (issues.map toDiagnostic).count (.undeclared callee loc) =
      issues.count (.caution loc (.implicitDeclaration callee)) := by
  rw [List.count, List.countP_map, List.count]
  refine List.countP_congr fun issue _ => ?_
  rw [Function.comp_apply, beq_iff_eq, beq_iff_eq]
  exact toDiagnostic_eq_undeclared

namespace Parse

/-! ## At the end of the text -/

section

variable {table : Signatures} {signature : Signature}

/-- A call that waited for an unknown function is warned about, and that is all. -/
theorem issues_unknown {c : PendingCall} (h : table.find? c.callee = none) :
    c.issues table = [.caution c.loc (.implicitDeclaration c.callee)] := by
  unfold PendingCall.issues
  rw [h]

/-- About a function that is known meanwhile there is no such warning. -/
theorem issues_known {c : PendingCall} (h : table.find? c.callee = some signature) :
    ∀ issue ∈ c.issues table, issue.isUndeclared = false := by
  unfold PendingCall.issues
  rw [h]
  refine List.forall_mem_append.2 ⟨fun issue hissue => ?_, fun issue hissue => ?_⟩
  · exact (Argument.doubts_mismatches issue hissue).not_undeclared
  · obtain ⟨problem, -, rfl⟩ := Option.map_eq_some_iff.1 (Option.mem_toList.1 hissue)
    rfl

end

namespace Site

variable {site : Site} {table : Signatures} {signature : Signature}

variable (site) in
/-- The warning about a call there. -/
def warning : Issue := .caution site.loc (.implicitDeclaration site.callee)

theorem warning_not_mem {issues : List Issue} (h : ∀ issue ∈ issues, issue.isUndeclared = false) :
    site.warning ∉ issues := by
  intro hmem
  cases h site.warning hmem

theorem count_issues (h : table.find? site.callee = none) (c : PendingCall) :
    (c.issues table).count site.warning =
      if c.callee = site.callee ∧ c.loc = site.loc then 1 else 0 := by
  cases hfind : table.find? c.callee with
  | none =>
    rw [issues_unknown hfind, List.count_singleton]
    simp [warning, and_comm]
  | some signature =>
    have hother : c.callee ≠ site.callee := by
      intro hcallee
      rw [hcallee, h] at hfind
      cases hfind
    rw [List.count_eq_zero_of_not_mem (warning_not_mem (issues_known hfind)),
      if_neg fun hsite => hother hsite.1]

/-- As long as a function is unknown, there is one warning for each call of it that waited. -/
theorem count_settled (h : table.find? site.callee = none) (pending : List PendingCall) :
    (pending.flatMap (PendingCall.issues table)).count site.warning =
      pending.countP fun c => c.callee = site.callee ∧ c.loc = site.loc := by
  induction pending with
  | nil => rfl
  | cons c pending ih =>
    rw [List.flatMap_cons, List.count_append, ih, count_issues h, List.countP_cons, Nat.add_comm]
    simp only [decide_eq_true_eq]

theorem warning_not_settled (h : table.find? site.callee = some signature)
    (pending : List PendingCall) : site.warning ∉ pending.flatMap (PendingCall.issues table) := by
  intro hmem
  obtain ⟨c, -, hissue⟩ := List.mem_flatMap.1 hmem
  cases hfind : table.find? c.callee with
  | none =>
    rw [issues_unknown hfind] at hissue
    have hcallee : site.callee = c.callee := by
      injection List.mem_singleton.1 hissue with _ hcaution
      injection hcaution
    rw [hcallee, hfind] at h
    cases h
  | some known => exact warning_not_mem (issues_known hfind) hissue

end Site

section

variable {tokens : List Token} {budget : Nat} {last : State}

/-- All that was read, accepted or not, keeps the balance. -/
theorem objects_balance (h : (Parser.objects budget).run (.ofTokens tokens) = .ok () last)
    (site : Site) : site.Balances (.ofTokens tokens) last 0 0 := by
  have hobjects : ((Parser.objects budget).run (.ofTokens tokens)).Balances site (.ofTokens tokens) 0
      fun _ => 0 := Parser.Queues.objects budget (.ofTokens tokens)
  rw [h] at hobjects
  exact hobjects

/-- Before the end of the text nothing is warned about. -/
theorem warning_not_read (h : (Parser.objects budget).run (.ofTokens tokens) = .ok () last)
    (site : Site) : site.warning ∉ last.issues :=
  Site.warning_not_mem ((objects_balance h site).quiet (List.forall_mem_nil _))

/-- Calls that are stored at the end have all waited. -/
theorem stored_le_waiting (h : (Parser.objects budget).run (.ofTokens tokens) = .ok () last)
    {site : Site} (hunknown : site.Unknown last) : site.stored last ≤ site.waiting last := by
  have hbalance := (objects_balance h site).balance hunknown
  have hstored : site.stored (.ofTokens tokens) = 0 := rfl
  omega

end

/-- **Warnings about functions that are nowhere declared are exact.** If reading a token list ends
without a fault, no such warning names a function that is known at the end, from a prototype or a
definition before or behind the call. A function that is not known then is warned about, for each place,
at least as often as the functions that were read call it there. -/
theorem parse_undeclared {tokens : List Token} {parsed : Parsed} (h : parse tokens = .ok parsed) :
    (∀ callee, parsed.signatures.contains callee → ∀ loc,
      .undeclared callee loc ∉ parsed.issues.map Issue.toDiagnostic) ∧
    ∀ callee, parsed.signatures.contains callee = false → ∀ loc,
      (parsed.program.functions.flatMap (·.body.nodes)).countP (·.isCallAt callee loc) ≤
        (parsed.issues.map Issue.toDiagnostic).count (.undeclared callee loc) := by
  obtain ⟨budget, last, hlast, rfl⟩ := parse_last h
  constructor
  · intro callee hknown loc hmem
    let site : Site := ⟨callee, loc⟩
    obtain ⟨signature, hfind⟩ := Option.isSome_iff_exists.1 hknown
    obtain ⟨issue, hissue, hwarning⟩ := List.mem_map.1 hmem
    have hsite : issue = site.warning := Issue.toDiagnostic_eq_undeclared.1 hwarning
    rw [hsite] at hissue
    rcases List.mem_append.1 hissue with hread | hsettled
    · exact warning_not_read hlast site hread
    · exact Site.warning_not_settled hfind last.pending hsettled
  · intro callee hknown loc
    let site : Site := ⟨callee, loc⟩
    have hunknown : site.Unknown last :=
      Option.isNone_iff_eq_none.1 (Option.isSome_eq_false_iff.1 hknown)
    calc (last.parsed.program.functions.flatMap (·.body.nodes)).countP (·.isCallAt callee loc)
      _ = site.stored last := by
        rw [Site.stored, Site.calls, List.flatMap_assoc]
        rfl
      _ ≤ site.waiting last := stored_le_waiting hlast hunknown
      _ = (last.pending.flatMap (PendingCall.issues last.signatures)).count site.warning :=
        (Site.count_settled hunknown last.pending).symm
      _ ≤ last.parsed.issues.count site.warning :=
        (List.sublist_append_right last.issues _).count_le site.warning
      _ = (last.parsed.issues.map Issue.toDiagnostic).count (.undeclared callee loc) :=
        (Issue.count_undeclared _ callee loc).symm

/-- A function is called before it is defined. Two others are nowhere declared; they are called inside
one another, in a statement that is rejected and in the operand of a `sizeof`. -/
def scattered : String :=
  "int main() \x7b f(g(1)); g(h(2); return h(g(3)) + sizeof h(4); \x7d " ++
    "int f(int a) \x7b return g(a); \x7d"

theorem parse_scattered_undeclared :
    ∃ parsed, parse (Source.tokenize scattered).tokens = .ok parsed ∧
      parsed.signatures.contains "f" ∧ parsed.signatures.contains "g" = false ∧
      (∀ loc, .undeclared "f" loc ∉ parsed.issues.map Issue.toDiagnostic) ∧
      (parsed.program.functions.flatMap (·.body.nodes)).countP (·.isCallAt "g" ⟨1, 16⟩) = 1 ∧
      1 ≤ (parsed.issues.map Issue.toDiagnostic).count (.undeclared "g" ⟨1, 16⟩) := by
  obtain ⟨parsed, hparsed, -⟩ := parse_sound (Source.nonnegative_tokenize scattered)
  obtain ⟨hdeclared, hundeclared⟩ := parse_undeclared hparsed
  have hread : ∀ parsed ∈ (parse (Source.tokenize scattered).tokens).toOption,
      parsed.signatures.contains "f" ∧ parsed.signatures.contains "g" = false ∧
      (parsed.program.functions.flatMap (·.body.nodes)).countP (·.isCallAt "g" ⟨1, 16⟩) = 1 := by
    decide +kernel
  obtain ⟨hf, hg, hcalls⟩ := hread parsed (by rw [hparsed]; rfl)
  have hwarned := hundeclared "g" hg ⟨1, 16⟩
  rw [hcalls] at hwarned
  exact ⟨parsed, hparsed, hf, hg, hdeclared "f" hf, hcalls, hwarned⟩

end Parse

end WordC
