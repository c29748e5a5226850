import WordC.Proofs.Prototypes
import WordC.Proofs.Routines

/-!
# A bad expression statement and its siblings

An expression may be rejected anywhere in it: at its first token, deep inside, or where its semicolon
should stand. None of its readers reads a semicolon, and all they change besides the tokens are cautions
about arguments and calls that wait. So behind the rejection the semicolon is still ahead, and looking
for the next item ends right behind it.

* `Issue.DoubtsArgument`, `State.Within`: what can change while an expression is read.
* `Routine.along_within`: the readers of expressions keep to it, one case for each reader.
* `StatementAhead`: tokens up to a semicolon that neither start nor end an item.
* `StatementAhead.resume_eq`: where reading goes on, however far the statement was read.
* `rejected_statement`: what a rejected expression statement leaves to the rest of the block.
-/
namespace WordC

/-- A doubt whether an argument has the type of its parameter. -/
def Issue.DoubtsArgument : Issue → Prop
  | caution _ (.argumentMismatch _ _ _ _) => True
  | _ => False

theorem Argument.doubts_mismatches {callee : String} {args : List Argument} : ∀ {index : Nat}
    {params : List Ty}, ∀ issue ∈ mismatches callee index args params, issue.DoubtsArgument := by
  induction args with
  | nil => exact List.forall_mem_nil _
  | cons arg args ih =>
    intro index params
    cases params with
    | nil => exact List.forall_mem_nil _
    | cons param params =>
      rw [mismatches]
      split
      · exact ih
      · exact List.forall_mem_cons.2 ⟨trivial, ih⟩

namespace Parse

/-! ## Inside an expression -/

/-- From `s` to `s'` a part of an expression was read: no semicolon, and besides the tokens only doubts
about arguments and waiting calls are new. -/
structure State.Within (s s' : State) : Prop where
  tokens : ∃ read, s.rest = read ++ s'.rest ∧ ∀ t ∈ read, t.is ";" = false
  stop : s'.stop = s.stop
  scope : s'.scope = s.scope
  objects : s'.objects = s.objects
  signatures : s'.signatures = s.signatures
  issues : ∃ doubts, s'.issues = s.issues ++ doubts ∧ ∀ issue ∈ doubts, issue.DoubtsArgument
  pending : s.pending <+: s'.pending

namespace State.Within

variable {s s' s'' : State}

theorem refl (s : State) : s.Within s :=
  ⟨⟨[], rfl, List.forall_mem_nil _⟩, rfl, rfl, rfl, rfl,
    ⟨[], (List.append_nil _).symm, List.forall_mem_nil _⟩, List.prefix_refl _⟩

theorem trans (h : s.Within s') (h' : s'.Within s'') : s.Within s'' where
  tokens := by
    obtain ⟨read, hread, hplain⟩ := h.tokens
    obtain ⟨read', hread', hplain'⟩ := h'.tokens
    exact ⟨read ++ read', by rw [hread, hread', List.append_assoc],
      List.forall_mem_append.2 ⟨hplain, hplain'⟩⟩
  stop := h'.stop.trans h.stop
  scope := h'.scope.trans h.scope
  objects := h'.objects.trans h.objects
  signatures := h'.signatures.trans h.signatures
  issues := by
    obtain ⟨doubts, hdoubts, hall⟩ := h.issues
    obtain ⟨doubts', hdoubts', hall'⟩ := h'.issues
    exact ⟨doubts ++ doubts', by rw [hdoubts', hdoubts, List.append_assoc],
      List.forall_mem_append.2 ⟨hall, hall'⟩⟩
  pending := h.pending.trans h'.pending

theorem advance (h : s.current.is ";" = false) : s.Within { s with rest := s.rest.tail } :=
  { refl s with tokens := (Nears.advance h).tokens }

theorem doubt (s : State) {doubts : List Issue} (h : ∀ issue ∈ doubts, issue.DoubtsArgument) :
    s.Within { s with issues := s.issues ++ doubts } :=
  { refl s with issues := ⟨doubts, rfl, h⟩ }

theorem wait (s : State) (calls : List PendingCall) :
    s.Within { s with pending := s.pending ++ calls } :=
  { refl s with pending := List.prefix_append _ _ }

end State.Within

instance : Course State.Within := ⟨.refl, .trans, .advance⟩

/-! ## The readers of expressions -/

namespace Parser.Along

theorem checkCall (callee : String) (args : List Argument) (loc : Loc) :
    (Parser.checkCall callee args loc).Along State.Within := by
  refine get.bind fun s => ?_
  split
  · refine bind (fun s => .doubt s Argument.doubts_mismatches) fun _ => ?_
    split
    · exact reject _ _
    · exact pure _
  · exact fun s => .wait s _

theorem callOf (callee : String) (args : List Expr) (loc : Loc) :
    (Parser.callOf callee args loc).Along State.Within :=
  ite (reject _ _) ((checkCall _ _ _).bind fun _ => pure _)

theorem variableOf (token : Token) : (Parser.variableOf token).Along State.Within := by
  refine get.bind fun s => ?_
  split
  · exact pure _
  · exact reject _ _

end Parser.Along

namespace Routine

variable {call : (r : Routine) → Parser r.Result}

/-- All calls of readers of expressions keep within the expression. -/
def CallsWithin (call : (r : Routine) → Parser r.Result) : Prop :=
  ∀ r, r.group = .expression → (call r).Along State.Within

open Parser.Along

theorem along_assign (h : CallsWithin call) : (body call .assign).Along State.Within := by
  refine (h (.chain .equality) rfl).bind fun target => here.bind fun loc => ?_
  refine acceptElse (by decide) (ite ?_ (reject _ _)) (pure _)
  exact (h .assign rfl).bind fun value => ofRejection _

theorem along_chainFrom (h : CallsWithin call) (level : Level) (lhs : Expr) :
    (body call (.chainFrom level lhs)).Along State.Within := by
  intro s
  show ((Parser.current >>= fun token => _).run s).Along State.Within s
  rw [Parser.run_current_bind]
  split
  · rename_i op hop
    have his : s.current.is op.symbol := by
      have hsome := List.find?_some hop
      exact hsome
    have hplain : s.current.is ";" = false := by
      rw [Token.is_of_is his]
      cases op <;> decide
    refine Parser.along_bind (Parser.along_advance hplain) fun _ s' _ => ?_
    refine (h (.operand level) rfl).bind (fun rhs => ?_) s'
    exact (ofStop _).bind fun node => h (.chainFrom level node) rfl
  · exact pure _ s

theorem along_unary (h : CallsWithin call) : (body call .unary).Along State.Within := by
  have hunary := h .unary rfl
  refine here.bind fun loc => acceptElse (by decide) hunary ?_
  refine acceptElse (by decide) (hunary.bind fun operand => ofRejection _) ?_
  refine acceptElse (by decide) (hunary.bind fun operand => ite (ofRejection _) (reject _ _)) ?_
  refine acceptElse (by decide) (hunary.bind fun operand => ofRejection _) ?_
  exact h .subscripted rfl

theorem along_subscripts (h : CallsWithin call) (base : Expr) :
    (body call (.subscripts base)).Along State.Within := by
  refine here.bind fun loc => acceptElse (by decide) ?_ (pure _)
  refine (h .assign rfl).bind fun index => (expect (by decide)).bind fun _ => ?_
  exact (ofStop _).bind fun address => (ofRejection _).bind fun element => h (.subscripts element) rfl

theorem along_primary (h : CallsWithin call) : (body call .primary).Along State.Within := by
  intro s
  show ((Parser.current >>= fun token => _).run s).Along State.Within s
  rw [Parser.run_current_bind]
  refine Parser.along_acceptElse (by decide) ?_ (Parser.along_acceptElse (by decide) ?_ ?_)
  · exact (h .assign rfl).bind fun inner => (expect (by decide)).bind fun _ => pure _
  · exact (h .unary rfl).bind fun operand => (ofFault _).bind fun size => pure _
  split
  · rename_i hkind
    have hplain : s.current.is ";" = false := Token.is_eq_false (.inl hkind) _
    refine Parser.along_bind (Parser.along_advance hplain) fun _ s' _ => ?_
    refine acceptElse (by decide) (acceptElse (by decide) ?_ ?_) (variableOf _) s'
    · exact callOf _ [] _
    · exact (h .arguments rfl).bind fun args => callOf _ args _
  · exact ite (number.bind fun value => pure _) (reject _ _) s

theorem along_arguments (h : CallsWithin call) : (body call .arguments).Along State.Within := by
  refine (h .assign rfl).bind fun arg => acceptElse (by decide) (pure _) ?_
  exact (expect (by decide)).bind fun _ => (h .arguments rfl).bind fun more => pure _

/-- Whatever the budget, readers of expressions keep within the expression. -/
theorem along_within (b : Nat) : CallsWithin fun r => r.reader b := by
  induction b with
  | zero => intro r _ s; cases r <;> trivial
  | succ b ih =>
    intro r hr
    show (r.reader (b + 1)).Along State.Within
    rw [reader_succ]
    cases r with
    | assign => exact along_assign ih
    | chain level => exact (ih (.operand level) rfl).bind fun first => ih (.chainFrom level first) rfl
    | operand level =>
      cases level with
      | equality => exact ih (.chain .relational) rfl
      | relational => exact ih (.chain .additive) rfl
      | additive => exact ih (.chain .multiplicative) rfl
      | multiplicative => exact ih .unary rfl
    | chainFrom level lhs => exact along_chainFrom ih level lhs
    | unary => exact along_unary ih
    | subscripted => exact (ih .primary rfl).bind fun first => ih (.subscripts first) rfl
    | subscripts base => exact along_subscripts ih base
    | primary => exact along_primary ih
    | arguments => exact along_arguments ih
    | lengths ty => cases hr
    | statement | items => cases hr

end Routine

/-- A choice by the next token that is another one. -/
theorem Parser.run_acceptElse_of_not {α : Type} {text : String} {s : State} {p q : Parser α}
    (h : s.current.is text = false) :
    (accept text >>= fun b => if b = true then p else q).run s = q.run s := by
  rw [run_bind, run_accept_of_not h]
  rfl

theorem Parser.expect_rejected {text : String} {s s' : State} {r : Rejection}
    (h : (Parser.expect text).run s = .rejected r s') : s' = s := by
  unfold Parser.expect at h
  rw [run_bind, run_accept] at h
  split at h <;> cases h
  rfl

theorem Parser.Along.expression : Parser.expression.Along State.Within :=
  get.bind fun s => Routine.along_within (Parser.expressionBudget s.rest.length) .assign rfl

/-! ## Up to the semicolon -/

/-- The tokens that start or end an item of a block. -/
def boundaries : List String :=
  [";", "\x7b", "\x7d", "if", "for", "while", "return", "int"]

/-- At least one token and then a semicolon; none of the tokens in front of it starts or ends an item of
a block. -/
structure StatementAhead (ts junk : List Token) (semicolon : Token) (rest : List Token) : Prop where
  tokens : ts = junk ++ semicolon :: rest
  nonempty : junk ≠ []
  plain : ∀ t ∈ junk, ∀ text ∈ boundaries, t.is text = false
  stops : semicolon.is ";"

section

variable {junk rest : List Token} {semicolon : Token}

theorem startsItem_of_plain {t : Token} (h : ∀ text ∈ boundaries, t.is text = false) :
    ends t = false ∧ startsItem t = false := by
  simp [boundaries] at h
  simp [ends, startsItem, h]

theorem startsItem_semicolon (h : semicolon.is ";") : startsItem semicolon = false := by
  simp [startsItem, Token.is_of_is h]

/-- Looking for the next item ends behind the first semicolon. -/
theorem seek_semicolon (hends : semicolon.is ";")
    (hplain : ∀ t ∈ junk, ∀ text ∈ boundaries, t.is text = false) : ∀ {last : Option Token},
    last.any ends = false → seek startsItem last (junk ++ semicolon :: rest) = rest := by
  induction junk with
  | nil =>
    intro last hlast
    have hstop : seek startsItem (some semicolon) rest = rest := by
      cases rest with
      | nil => rfl
      | cons t ts => simp [seek, ends, hends]
    simp [seek, hlast, startsItem_semicolon hends, hstop]
  | cons t junk ih =>
    intro last hlast
    obtain ⟨ht, hplain⟩ := List.forall_mem_cons.1 hplain
    obtain ⟨hend, hstart⟩ := startsItem_of_plain ht
    simp [seek, hlast, hstart, ih hplain, hend]

namespace StatementAhead

variable {s s₁ : State}

/-- However far the statement was read, reading goes on behind its semicolon. -/
theorem resume_eq (h : StatementAhead s.rest junk semicolon rest) (hs : s.Within s₁) :
    resume startsItem s.rest s₁.rest = rest := by
  obtain ⟨read, hread, hplain⟩ := hs.tokens
  obtain ⟨back, hjunk, hleft⟩ := left_of_semicolon h.stops (h.tokens.symm.trans hread) hplain
  have hinside : ∀ t ∈ read ++ back, ∀ text ∈ boundaries, t.is text = false := hjunk ▸ h.plain
  obtain ⟨hreadPlain, hbackPlain⟩ := List.forall_mem_append.1 hinside
  unfold resume
  cases read with
  | nil =>
    -- Nothing was read: the first token is dropped, and it ends no item.
    rw [if_pos (by rw [hread]; rfl), hleft]
    cases back with
    | nil => exact absurd hjunk h.nonempty
    | cons t back =>
      obtain ⟨ht, hbackPlain⟩ := List.forall_mem_cons.1 hbackPlain
      exact seek_semicolon h.stops hbackPlain (startsItem_of_plain ht).1
  | cons t read =>
    have hshorter : s₁.rest.length ≠ s.rest.length := by
      rw [hread, List.length_append, List.length_cons]
      omega
    have hlast : ((t :: read).getLast?).any ends = false :=
      (Option.any_eq_false _ _).2 fun last hlast =>
        (startsItem_of_plain (hreadPlain last (List.mem_of_getLast? hlast))).1
    rw [if_neg hshorter, hread, consumed_append, hleft]
    exact seek_semicolon h.stops hbackPlain hlast

/-- The next token is none of those that start or end an item. -/
theorem current (h : StatementAhead s.rest junk semicolon rest) :
    ∀ text ∈ boundaries, s.current.is text = false := by
  obtain ⟨t, more, hjunk⟩ := List.exists_cons_of_ne_nil h.nonempty
  have hrest : s.rest = t :: (more ++ semicolon :: rest) := by rw [h.tokens, hjunk]; rfl
  rw [State.current_of_rest hrest]
  exact h.plain t (by rw [hjunk]; exact List.mem_cons_self)

/-- The statement is an expression with its semicolon. -/
theorem statement_run (h : StatementAhead s.rest junk semicolon rest) (budget : Nat) :
    (Parser.statement (budget + 1)).run s = Parser.expressionStatement.run s := by
  have hnot := h.current
  rw [Parser.statement, Parser.run_acceptElse_of_not (hnot "return" (by decide)),
    Parser.run_acceptElse_of_not (hnot "if" (by decide)),
    Parser.run_acceptElse_of_not (hnot "for" (by decide)),
    Parser.run_acceptElse_of_not (hnot "while" (by decide)),
    Parser.run_acceptElse_of_not (hnot "\x7b" (by decide))]

/-- Where such a statement is rejected, only a part of an expression was read. -/
theorem within (h : StatementAhead s.rest junk semicolon rest) {r : Rejection}
    (hrejected : Parser.expressionStatement.run s = .rejected r s₁) : s.Within s₁ := by
  unfold Parser.expressionStatement at hrejected
  rw [Parser.run_acceptElse_of_not (h.current ";" (by decide))] at hrejected
  rcases Parser.bind_rejected hrejected with hexpression | ⟨e, s₂, hexpression, hrejected⟩
  · exact Parser.Along.expression.rejected hexpression
  have hs₂ := Parser.Along.expression.ok hexpression
  rcases Parser.bind_rejected hrejected with hexpect | ⟨u, s₃, -, hpure⟩
  · rw [Parser.expect_rejected hexpect]
    exact hs₂
  · cases hpure

end StatementAhead

/-- In a block, a statement that is rejected is recorded and skipped. -/
theorem Parser.items_rejected {s s₁ : State} {r : Rejection} {budget : Nat}
    (hclose : s.current.is "\x7d" = false) (hmore : s.rest ≠ [])
    (hint : startsObject s.current = false) (hrejected : (statement budget).run s = .rejected r s₁) :
    (items (budget + 1)).run s = (items budget).run
      { s₁ with
        issues := s₁.issues ++ [.rejected r]
        rest := resume startsItem s.rest s₁.rest } := by
  have hend : s.rest.isEmpty = false := by simpa using hmore
  rw [items, run_acceptElse_of_not hclose, run_atEnd_bind, hend, if_neg (by decide), run_get_bind,
    run_current_bind, hint, if_neg (by decide), run_bind, attempt]
  simp only [hrejected, Outcome.andThen_ok]
  rfl

/-- **A bad expression statement is isolated from its siblings.** Let a block go on with tokens up to a
semicolon of which none starts or ends an item, and let the statement there be rejected. Then the block
goes on right behind that semicolon, without a statement for those tokens, and with exactly one error
more; in front of it there may be doubts about arguments. Objects, signatures and the scope are as they
were, and no call that waits is lost. -/
theorem rejected_statement {s s₁ : State} {r : Rejection} {budget : Nat}
    (h : StatementAhead s.rest junk semicolon rest)
    (hrejected : (Parser.statement budget).run s = .rejected r s₁) :
    ∃ s' doubts, (Parser.items (budget + 1)).run s = (Parser.items budget).run s' ∧
      s'.rest = rest ∧ s'.issues = s.issues ++ doubts ++ [.rejected r] ∧
      (∀ issue ∈ doubts, issue.DoubtsArgument) ∧ s'.objects = s.objects ∧
      s'.signatures = s.signatures ∧ s'.scope = s.scope ∧ s.pending <+: s'.pending := by
  cases budget with
  | zero => cases hrejected
  | succ budget =>
    have hs₁ : s.Within s₁ := h.within (h.statement_run budget ▸ hrejected)
    obtain ⟨doubts, hissues, hdoubts⟩ := hs₁.issues
    refine ⟨{ s₁ with issues := s₁.issues ++ [.rejected r], rest := rest }, doubts, ?_, rfl,
      congrArg (· ++ [.rejected r]) hissues, hdoubts, hs₁.objects, hs₁.signatures, hs₁.scope,
      hs₁.pending⟩
    have hrun := Parser.items_rejected (h.current "\x7d" (by decide)) (by simp [h.tokens])
      (h.current "int" (by decide)) hrejected
    rw [hrun, h.resume_eq hs₁]

end

open Surface in
/-- The tokens of `a = f(&a) + (2 *)`, whose argument is a pointer and whose last operand is missing. -/
def missingOperand : List Token :=
  [ident "a", mark "=", ident "f", mark "(", mark "&", ident "a", mark ")", mark "+", mark "(",
    literal 2, mark "*", mark ")"]

open Surface in
/-- The tokens of `return a; }` behind it. -/
def behindMissingOperand : List Token :=
  [keyword "return", ident "a", mark ";", mark "\x7d"]

/-- A state in a block in front of them, where `a` is an integer and `f` takes one. -/
def beforeMissingOperand : State :=
  { State.ofTokens (missingOperand ++ Surface.mark ";" :: behindMissingOperand) with
    signatures := Signatures.empty.define "f" [.int]
    scope := ⟨[⟨"a", .int, -8⟩], 8⟩ }

/-- The statement is skipped with one doubt and one error, and `return a;` is read next. -/
theorem missingOperand_isolated :
    ∃ r s₁ s' doubts, (Parser.statement 1).run beforeMissingOperand = .rejected r s₁ ∧
      (Parser.items 2).run beforeMissingOperand = (Parser.items 1).run s' ∧
      s'.rest = behindMissingOperand ∧ s'.issues = doubts ++ [.rejected r] ∧
      (∀ issue ∈ doubts, issue.DoubtsArgument) := by
  have hahead : StatementAhead beforeMissingOperand.rest missingOperand (Surface.mark ";")
      behindMissingOperand := ⟨by decide, by decide, by decide, by decide⟩
  have hrun : ∃ r s₁, (Parser.statement 1).run beforeMissingOperand = .rejected r s₁ :=
    ⟨_, _, rfl⟩
  obtain ⟨r, s₁, hrejected⟩ := hrun
  obtain ⟨s', doubts, hitems, hrest, hissues, hdoubts, -⟩ := rejected_statement hahead hrejected
  exact ⟨r, s₁, s', doubts, hrejected, hitems, hrest, hissues, hdoubts⟩

end Parse

end WordC
