import WordC.Compile
import WordC.Proofs.Lines
import WordC.Proofs.Routines
import WordC.Proofs.Safety

/-!
# Every diagnostic points at the text

Readers make up no positions. What they reject or record stands where a token stands, also when the
position went through expressions, waited with a call for the end of the text, or came from an argument.
So every diagnostic points at the first character of a token or of a segment that is none, or at the
end.

* `Parse.State.Located`: everything in a state that has a position has one of the given ones.
* `Parse.Parser.Points`: a reader that keeps it so, with one rule for each way readers are put together.
* `Parse.Routine.Given`, `Parse.Routine.Gives`: what the recursive readers need and return.
* `Parse.parse_points`: whatever is recorded stands where a token stands.
* `Diagnostic.Marks`, `compile_points`: what this comes to for source texts and what is shown of them.
-/
namespace WordC

/-- An issue that a reader may record: it stands at a place of which `P` holds. -/
def Issue.ReadAt (P : Loc → Prop) : Issue → Prop
  | lexical _ _ => False
  | rejected r => P r.loc
  | caution loc _ => P loc

theorem Issue.ReadAt.toDiagnostic {P : Loc → Prop} {issue : Issue} (h : issue.ReadAt P) :
    P issue.toDiagnostic.loc ∧ issue.toDiagnostic.kind ≠ .lexical := by
  cases issue with
  | lexical _ _ => exact h.elim
  | rejected r =>
    simp only [Issue.toDiagnostic, Rejection.toFailure]
    split <;> exact ⟨h, fun hkind => by cases hkind⟩
  | caution _ _ => exact ⟨h, fun hkind => by cases hkind⟩

namespace Parse

/-! ## Located states -/

/-- Tokens, issues and waiting calls have places of which `P` holds. -/
structure State.Located (P : Loc → Prop) (s : State) : Prop where
  rest : ∀ t ∈ s.rest, P t.loc
  stop : P s.stop
  issues : ∀ issue ∈ s.issues, issue.ReadAt P
  pending : ∀ c ∈ s.pending, P c.loc ∧ ∀ arg ∈ c.args, P arg.loc

/-- How a reader may end. -/
def Outcome.Located {α : Type} (P : Loc → Prop) (post : α → Prop) : Outcome α → Prop
  | .ok a s => s.Located P ∧ post a
  | .rejected r s => s.Located P ∧ P r.loc
  | .faulted _ => True

namespace State.Located

variable {P : Loc → Prop} {s : State}

theorem current (h : s.Located P) : P s.current.loc := by
  unfold State.current
  split
  · rename_i t ts hrest
    exact h.rest t (by rw [hrest]; exact List.mem_cons_self)
  · exact h.stop

theorem read (h : s.Located P) {rest : List Token} (hrest : rest <:+ s.rest) :
    State.Located P { s with rest := rest } :=
  { h with rest := fun t ht => h.rest t (hrest.subset ht) }

theorem record (h : s.Located P) {issues : List Issue}
    (hissues : ∀ issue ∈ issues, issue.ReadAt P) :
    State.Located P { s with issues := s.issues ++ issues } :=
  { h with issues := List.forall_mem_append.2 ⟨h.issues, hissues⟩ }

theorem wait (h : s.Located P) {c : PendingCall} (hc : P c.loc) (hargs : ∀ arg ∈ c.args, P arg.loc) :
    State.Located P { s with pending := s.pending ++ [c] } :=
  { h with
    pending := List.forall_mem_append.2 ⟨h.pending, List.forall_mem_singleton.2 ⟨hc, hargs⟩⟩ }

end State.Located

/-! ## Readers that point at tokens -/

namespace Parser

variable {α β : Type} {P : Loc → Prop}

/-- From a located state, the reader comes to a located state, and to a result with `post`. -/
def Points (P : Loc → Prop) (post : α → Prop) (p : Parser α) : Prop :=
  ∀ s, s.Located P → (p.run s).Located P post

namespace Points

variable {p q : Parser α} {f : α → Parser β} {pre : α → Prop} {post : β → Prop}

theorem pure {a : α} (h : pre a) : (Pure.pure a : Parser α).Points P pre :=
  fun _ hs => ⟨hs, h⟩

theorem bind (hp : p.Points P pre) (hf : ∀ a, pre a → (f a).Points P post) :
    (p >>= f).Points P post := by
  intro s hs
  have hrun := hp s hs
  rw [run_bind]
  cases h : p.run s with
  | ok a s' => rw [h] at hrun; exact hf a hrun.2 s' hrun.1
  | rejected r s' => rw [h] at hrun; exact hrun
  | faulted fault => trivial

theorem ite {c : Prop} [Decidable c] (hp : c → p.Points P pre) (hq : ¬c → q.Points P pre) :
    (if c then p else q).Points P pre := by
  split
  · rename_i hc; exact hp hc
  · rename_i hc; exact hq hc

theorem reject {loc : Loc} {problem : Problem} (h : P loc) :
    (Parser.reject loc problem : Parser α).Points P pre :=
  fun _ hs => ⟨hs, h⟩

theorem attempt (h : p.Points P pre) :
    p.attempt.Points P fun
      | .ok a => pre a
      | .error r => P r.loc := by
  intro s hs
  have hrun := h s hs
  cases hp : p.run s with
  | ok a s' =>
    rw [hp] at hrun
    simp only [Parser.attempt, hp]
    exact hrun
  | rejected r s' =>
    rw [hp] at hrun
    simp only [Parser.attempt, hp]
    exact hrun
  | faulted fault => simp only [Parser.attempt, hp, Outcome.Located]

theorem ofRejection {r : Except Rejection α} (hok : ∀ a, r = .ok a → pre a)
    (herror : ∀ r', r = .error r' → P r'.loc) : (Parser.ofRejection r).Points P pre := by
  cases r with
  | ok a => exact pure (hok a rfl)
  | error r => exact fun _ hs => ⟨hs, herror r rfl⟩

theorem ofFault (r : Except Fault α) : (Parser.ofFault r).Points P fun _ => True := by
  cases r with
  | ok a => exact pure trivial
  | error f => exact fun _ _ => trivial

theorem ofStop {r : Except Stop α} (hok : ∀ a, r = .ok a → pre a)
    (herror : ∀ r', r = .error (.rejected r') → P r'.loc) : (Parser.ofStop r).Points P pre := by
  rcases r with (r | fault) | a
  · exact fun _ hs => ⟨hs, herror r rfl⟩
  · exact fun _ _ => trivial
  · exact pure (hok a rfl)

theorem get : Parser.get.Points P (State.Located P) :=
  fun _ hs => ⟨hs, hs⟩

theorem modify {g : State → State} (h : ∀ s, s.Located P → (g s).Located P) :
    (Parser.modify g).Points P fun _ => True :=
  fun s hs => ⟨h s hs, trivial⟩

theorem record {issues : List Issue} (h : ∀ issue ∈ issues, issue.ReadAt P) :
    (Parser.record issues).Points P fun _ => True :=
  modify fun _ hs => hs.record h

theorem report {r : Rejection} (h : P r.loc) : (Parser.report r).Points P fun _ => True :=
  record (List.forall_mem_singleton.2 h)

theorem current : Parser.current.Points P fun t => P t.loc :=
  fun _ hs => ⟨hs, hs.current⟩

theorem here : Parser.here.Points P P :=
  fun _ hs => ⟨hs, hs.current⟩

theorem sees (text : String) : (Parser.sees text).Points P fun _ => True :=
  fun _ hs => ⟨hs, trivial⟩

theorem atEnd : Parser.atEnd.Points P fun _ => True :=
  fun _ hs => ⟨hs, trivial⟩

theorem advance : Parser.advance.Points P fun _ => True :=
  modify fun s hs => hs.read (List.tail_suffix s.rest)

theorem accept (text : String) : (Parser.accept text).Points P fun _ => True :=
  (sees text).bind fun _ _ => ite (fun _ => advance.bind fun _ _ => pure trivial) fun _ => pure trivial

/-- A choice by the next token. -/
theorem acceptElse {text : String} (hp : p.Points P pre) (hq : q.Points P pre) :
    (Parser.accept text >>= fun b => if b = true then p else q).Points P pre :=
  (accept text).bind fun _ _ => ite (fun _ => hp) fun _ => hq

theorem expect (text : String) : (Parser.expect text).Points P fun _ => True :=
  acceptElse (pure trivial) (current.bind fun _ ht => reject ht)

theorem number : Parser.number.Points P fun _ => True := by
  refine current.bind fun t ht => ite (fun _ => ?_) fun _ => reject ht
  split
  · exact advance.bind fun _ _ => pure trivial
  · exact reject ht

theorem identifier : Parser.identifier.Points P fun name => P name.loc :=
  current.bind fun _ ht => ite (fun _ => advance.bind fun _ _ => pure ht) fun _ => reject ht

end Points

end Parser

/-! ## Trees -/

section

variable {P : Loc → Prop} {loc : Loc}

/-- A tree stands where its operator stands. -/
theorem Combines.loc_eq {a b e : Expr} (h : Combines a b loc e) : e.loc = loc := by
  cases h <;> rfl

theorem Operator.loc_of_build_rejected {op : Operator} {lhs rhs : Expr} {r : Rejection}
    (h : op.build lhs rhs loc = .error (.rejected r)) : r.loc = loc := by
  have hstep : ∀ {op pointer index}, Expr.step op pointer index loc ≠ .error (.rejected r) := by
    intro op pointer index hstep
    unfold Expr.step at hstep
    split at hstep <;> cases hstep
  have hdistance : Expr.distance lhs rhs loc ≠ .error (.rejected r) := by
    intro hdistance
    unfold Expr.distance at hdistance
    split at hdistance <;> cases hdistance
  cases op with
  | add =>
    replace h : Expr.plus lhs rhs loc = .error (.rejected r) := h
    unfold Expr.plus at h
    split at h
    · cases h
    · exact absurd h hstep
    · exact absurd h hstep
    · cases h; rfl
  | sub =>
    replace h : Expr.minus lhs rhs loc = .error (.rejected r) := h
    unfold Expr.minus at h
    split at h
    · cases h
    · exact absurd h hstep
    · exact absurd h hdistance
    · cases h; rfl
  | eq | ne | lt | le | gt | ge | mul | div => cases h

namespace Parser.Points

theorem build (op : Operator) (lhs rhs : Expr) (hloc : P loc) :
    (Parser.ofStop (op.build lhs rhs loc)).Points P fun e => P e.loc := by
  refine ofStop (fun e he => ?_) fun r hr => ?_
  · rw [(Operator.build_ok he).elim Combines.loc_eq Combines.loc_eq]
    exact hloc
  · rw [Operator.loc_of_build_rejected hr]
    exact hloc

theorem mkUnary (op : UnaryOp) (operand : Expr) (hloc : P loc) :
    (Parser.ofRejection (Expr.mkUnary op operand loc)).Points P fun e => P e.loc := by
  unfold Expr.mkUnary
  split
  · exact pure hloc
  · exact pure hloc
  · split
    · exact pure hloc
    · exact ofRejection nofun fun r hr => by cases hr; exact hloc

theorem mkAssign {lhs : Expr} (rhs : Expr) (hlhs : P lhs.loc) (hloc : P loc) :
    (Parser.ofRejection (Expr.mkAssign lhs rhs loc)).Points P fun e => P e.loc := by
  unfold Expr.mkAssign
  split
  · exact ofRejection nofun fun r hr => by cases hr; exact hlhs
  · exact pure hloc

end Parser.Points

/-- Cautions about arguments stand where the arguments stand. -/
theorem mismatches_readAt {callee : String} {args : List Argument} {params : List Ty} {index : Nat}
    (hargs : ∀ arg ∈ args, P arg.loc) :
    ∀ issue ∈ Argument.mismatches callee index args params, issue.ReadAt P := by
  induction args generalizing index params with
  | nil => exact List.forall_mem_nil _
  | cons arg args ih =>
    obtain ⟨harg, hargs⟩ := List.forall_mem_cons.1 hargs
    cases params with
    | nil => exact List.forall_mem_nil _
    | cons param params =>
      rw [Argument.mismatches]
      split
      · exact ih hargs
      · exact List.forall_mem_cons.2 ⟨harg, ih hargs⟩

/-- What is found about a call that had to wait stands where the call or one of its arguments
stands. -/
theorem issues_readAt {table : Signatures} {c : PendingCall} (hc : P c.loc)
    (hargs : ∀ arg ∈ c.args, P arg.loc) : ∀ issue ∈ c.issues table, issue.ReadAt P := by
  unfold PendingCall.issues
  split
  · exact List.forall_mem_singleton.2 hc
  · refine List.forall_mem_append.2 ⟨mismatches_readAt hargs, fun issue hissue => ?_⟩
    obtain ⟨problem, -, rfl⟩ := Option.mem_map.1 (Option.mem_toList.1 hissue)
    exact hc

namespace Parser.Points

theorem checkCall (callee : String) {args : List Argument} (hargs : ∀ arg ∈ args, P arg.loc)
    (hloc : P loc) : (Parser.checkCall callee args loc).Points P fun _ => True := by
  refine get.bind fun s _ => ?_
  split
  · refine (record (mismatches_readAt hargs)).bind fun _ _ => ?_
    split
    · exact reject hloc
    · exact pure trivial
  · exact modify fun s hs => hs.wait hloc hargs

theorem callOf (callee : String) {args : List Expr} (hargs : ∀ arg ∈ args, P arg.loc) (hloc : P loc) :
    (Parser.callOf callee args loc).Points P fun e => P e.loc := by
  refine ite (fun _ => reject hloc) fun _ => ?_
  refine (checkCall callee ?_ hloc).bind fun _ _ => pure hloc
  exact List.forall_mem_map.2 hargs

theorem variableOf {token : Token} (htoken : P token.loc) :
    (Parser.variableOf token).Points P fun e => P e.loc := by
  refine get.bind fun s _ => ?_
  split
  · exact pure htoken
  · exact reject htoken

end Parser.Points

end

/-! ## The recursive readers -/

namespace Routine

/-- What a routine builds on stands at a good place. -/
def Given (P : Loc → Prop) : Routine → Prop
  | chainFrom _ lhs => P lhs.loc
  | subscripts base => P base.loc
  | _ => True

/-- What a routine returns stands at a good place. -/
def Gives (P : Loc → Prop) : (r : Routine) → r.Result → Prop
  | assign, e | chain _, e | operand _, e | chainFrom _ _, e | unary, e | subscripted, e
  | subscripts _, e | primary, e => P e.loc
  | arguments, es => ∀ e ∈ es, P e.loc
  | lengths _, _ | statement, _ | items, _ => True

/-- The calls that a routine makes of others of its group, and of itself, point at tokens. -/
def CallsPoint (P : Loc → Prop) (call : (r : Routine) → Parser r.Result) (g : Group) : Prop :=
  ∀ r, r.group = g → r.Given P → (call r).Points P (r.Gives P)

variable {P : Loc → Prop} {call : (r : Routine) → Parser r.Result}

open Parser.Points

theorem points_assign (h : CallsPoint P call .expression) :
    (body call .assign).Points P (Gives P .assign) := by
  refine (h (.chain .equality) rfl trivial).bind fun target htarget => ?_
  refine here.bind fun loc hloc => acceptElse ?_ (pure htarget)
  refine ite (fun _ => ?_) fun _ => reject htarget
  exact (h .assign rfl trivial).bind fun value _ => mkAssign value htarget hloc

theorem points_chainFrom (h : CallsPoint P call .expression) {level : Level} {lhs : Expr}
    (hlhs : P lhs.loc) : (body call (.chainFrom level lhs)).Points P (Gives P (.chainFrom level lhs)) := by
  refine current.bind fun token htoken => ?_
  split
  · refine advance.bind fun _ _ => (h (.operand level) rfl trivial).bind fun rhs _ => ?_
    exact (build _ lhs rhs htoken).bind fun node hnode => h (.chainFrom level node) rfl hnode
  · exact pure hlhs

theorem points_unary (h : CallsPoint P call .expression) :
    (body call .unary).Points P (Gives P .unary) := by
  have hunary := h .unary rfl trivial
  refine here.bind fun loc hloc => acceptElse hunary ?_
  refine acceptElse (hunary.bind fun operand _ => mkUnary .neg operand hloc) ?_
  refine acceptElse (hunary.bind fun operand hoperand => ?_) ?_
  · exact ite (fun _ => mkUnary .addr operand hloc) fun _ => reject hoperand
  refine acceptElse (hunary.bind fun operand _ => mkUnary .deref operand hloc) ?_
  exact h .subscripted rfl trivial

theorem points_subscripts (h : CallsPoint P call .expression) {base : Expr} (hbase : P base.loc) :
    (body call (.subscripts base)).Points P (Gives P (.subscripts base)) := by
  refine here.bind fun loc hloc => acceptElse ?_ (pure hbase)
  refine (h .assign rfl trivial).bind fun index _ => (expect "]").bind fun _ _ => ?_
  refine (build .add base index hloc).bind fun address _ => ?_
  exact (mkUnary .deref address hloc).bind fun element helement => h (.subscripts element) rfl helement

theorem points_primary (h : CallsPoint P call .expression) :
    (body call .primary).Points P (Gives P .primary) := by
  refine current.bind fun token htoken => acceptElse ?_ (acceptElse ?_ (ite (fun _ => ?_) fun _ => ?_))
  · exact (h .assign rfl trivial).bind fun inner hinner => (expect ")").bind fun _ _ => pure hinner
  · exact (h .unary rfl trivial).bind fun operand _ => (ofFault _).bind fun _ _ => pure htoken
  · refine advance.bind fun _ _ => acceptElse ?_ (variableOf htoken)
    refine acceptElse (callOf _ (List.forall_mem_nil _) htoken) ?_
    exact (h .arguments rfl trivial).bind fun args hargs => callOf _ hargs htoken
  · exact ite (fun _ => number.bind fun _ _ => pure htoken) fun _ => reject htoken

theorem points_arguments (h : CallsPoint P call .expression) :
    (body call .arguments).Points P (Gives P .arguments) := by
  refine (h .assign rfl trivial).bind fun arg harg => acceptElse ?_ ?_
  · exact pure (List.forall_mem_singleton.2 harg)
  · refine (expect ",").bind fun _ _ => (h .arguments rfl trivial).bind fun more hmore => ?_
    exact pure (List.forall_mem_cons.2 ⟨harg, hmore⟩)

theorem points_arrayOf (base : Ty) (len : Int) {loc : Loc} (hloc : P loc) :
    (Parser.arrayOf base len loc).Points P fun _ => True := by
  refine (ofFault _).bind fun size _ => ?_
  split
  · exact pure trivial
  · exact reject hloc

theorem points_lengths (h : CallsPoint P call .declarator) (ty : Ty) :
    (body call (.lengths ty)).Points P (Gives P (.lengths ty)) := by
  refine acceptElse ?_ (pure trivial)
  refine here.bind fun loc hloc => number.bind fun len _ => (expect "]").bind fun _ _ => ?_
  exact (h (.lengths ty) rfl trivial).bind fun element _ => points_arrayOf element len hloc

/-- Readers of expressions and lengths point at tokens, with every budget. -/
theorem reader_points (b : Nat) (g : Group) (hg : g ≠ .statement) :
    CallsPoint P (fun r => r.reader b) g := by
  induction b generalizing g with
  | zero => intro r _ _ s _; cases r <;> trivial
  | succ b ih =>
    intro r hr hgiven
    subst hr
    have h := ih _ hg
    show (r.reader (b + 1)).Points P (r.Gives P)
    rw [reader_succ]
    cases r with
    | assign => exact points_assign h
    | chain level =>
      exact (h (.operand level) rfl trivial).bind fun e he => h (.chainFrom level e) rfl he
    | operand level =>
      cases level with
      | equality => exact h (.chain .relational) rfl trivial
      | relational => exact h (.chain .additive) rfl trivial
      | additive => exact h (.chain .multiplicative) rfl trivial
      | multiplicative => exact h .unary rfl trivial
    | chainFrom level lhs => exact points_chainFrom h hgiven
    | unary => exact points_unary h
    | subscripted =>
      exact (h .primary rfl trivial).bind fun e he => h (.subscripts e) rfl he
    | subscripts base => exact points_subscripts h hgiven
    | primary => exact points_primary h
    | arguments => exact points_arguments h
    | lengths ty => exact points_lengths h ty
    | statement | items => exact absurd rfl hg

end Routine

/-! ## Declarations and statements -/

namespace Parser.Points

variable {P : Loc → Prop}

theorem expression : Parser.expression.Points P fun e => P e.loc :=
  get.bind fun s _ => Routine.reader_points (Parser.expressionBudget s.rest.length) .expression
    (by decide) .assign rfl trivial

theorem typeName : Parser.typeName.Points P fun _ => True :=
  (expect "int").bind fun _ _ => pure trivial

theorem pointers (ty : Ty) : (Parser.pointers ty).Points P fun _ => True := by
  refine fun s hs => ⟨hs.read ?_, trivial⟩
  rw [pointersFrom_rest]
  exact List.dropWhile_suffix _

theorem declarator (base : Ty) : (Parser.declarator base).Points P fun d => P d.name.loc := by
  refine (pointers base).bind fun ty _ => identifier.bind fun name hname => ?_
  have hlengths : (Parser.suffixes ty).Points P fun _ => True :=
    get.bind fun s _ => Routine.reader_points (s.rest.length + 1) .declarator (by decide)
      (.lengths ty) rfl trivial
  exact hlengths.bind fun _ _ => pure hname

theorem declareLocal {name : Parser.Name} (ty : Ty) (hname : P name.loc) :
    (Parser.declareLocal name ty).Points P fun _ => True := by
  refine get.bind fun s _ => ite (fun _ => reject hname) fun _ => (ofFault _).bind fun size _ => ?_
  split
  · exact reject hname
  · refine ite (fun _ => (ofFault _).bind fun offset _ => ?_) fun _ => reject hname
    exact Points.bind (modify fun _ hs => { hs with }) fun _ _ => pure trivial

theorem separator (first : Bool) : (Parser.separator first).Points P fun _ => True :=
  ite (fun _ => pure trivial) fun _ => expect ","

theorem initializer (v : Local) {loc : Loc} (hloc : P loc) :
    (Parser.initializer v loc).Points P fun _ => True := by
  refine here.bind fun eqLoc heq => acceptElse ?_ (pure trivial)
  refine expression.bind fun value _ => ?_
  exact (mkAssign value hloc heq).bind fun _ _ => pure trivial

theorem declarators (base : Ty) (budget : Nat) : ∀ first,
    (Parser.declarators budget base first).Points P fun _ => True := by
  induction budget with
  | zero => intro first s _; trivial
  | succ budget ih =>
    intro first
    refine acceptElse (pure trivial) ((separator first).bind fun _ _ => ?_)
    refine (declarator base).bind fun d hd => (declareLocal d.ty hd).bind fun v _ => ?_
    exact (initializer v hd).bind fun _ _ => (ih false).bind fun _ _ => pure trivial

theorem declaration : Parser.declaration.Points P fun _ => True :=
  typeName.bind fun base _ => get.bind fun _ _ => (declarators base _ true).bind fun _ _ => pure trivial

theorem expressionStatement : Parser.expressionStatement.Points P fun _ => True :=
  acceptElse (pure trivial) (expression.bind fun _ _ => (expect ";").bind fun _ _ => pure trivial)

theorem expressionUnless (text : String) : (Parser.expressionUnless text).Points P fun _ => True :=
  (sees text).bind fun _ _ => ite (fun _ => pure trivial) fun _ => expression.bind fun _ _ => pure trivial

end Parser.Points

namespace Routine

variable {P : Loc → Prop} {call : (r : Routine) → Parser r.Result}

open Parser.Points

/-- A condition in parentheses. -/
theorem points_condition {α : Type} {post : α → Prop} {p : Expr → Parser α}
    (h : ∀ cond, (p cond).Points P post) :
    (Parser.expect "(" >>= fun _ => Parser.expression >>= fun cond => Parser.expect ")" >>= fun _ =>
      p cond).Points P post :=
  (expect "(").bind fun _ _ => expression.bind fun cond _ => (expect ")").bind fun _ _ => h cond

theorem points_statement (h : CallsPoint P call .statement) :
    (body call .statement).Points P (Gives P .statement) := by
  have hstatement := h .statement rfl trivial
  refine acceptElse ?_ (acceptElse ?_ (acceptElse ?_ (acceptElse ?_ (acceptElse ?_ ?_))))
  · exact (expressionUnless ";").bind fun _ _ => (expect ";").bind fun _ _ => pure trivial
  · refine points_condition fun cond => hstatement.bind fun onTrue _ => acceptElse ?_ (pure trivial)
    exact hstatement.bind fun _ _ => pure trivial
  · have hrest : ∀ init, (do
        let cond ← Parser.expressionUnless ";"
        Parser.expect ";"
        let step ← Parser.expressionUnless ")"
        Parser.expect ")"
        let body ← call .statement
        return Stmt.loop (some init) cond step body).Points P fun _ => True := fun init =>
      (expressionUnless ";").bind fun _ _ => (expect ";").bind fun _ _ =>
        (expressionUnless ")").bind fun _ _ => (expect ")").bind fun _ _ =>
          hstatement.bind fun _ _ => pure trivial
    refine (expect "(").bind fun _ _ => (sees "int").bind fun _ _ => ite (fun _ => ?_) fun _ => ?_
    · exact declaration.bind fun init _ => hrest init
    · exact expressionStatement.bind fun init _ => hrest init
  · exact points_condition fun cond => hstatement.bind fun _ _ => pure trivial
  · exact (h .items rfl trivial).bind fun _ _ => pure trivial
  · exact expressionStatement

theorem points_items (h : CallsPoint P call .statement) :
    (body call .items).Points P (Gives P .items) := by
  have hitems := h .items rfl trivial
  refine acceptElse (pure trivial) (atEnd.bind fun _ _ => ite (fun _ => ?_) fun _ => ?_)
  · exact here.bind fun _ hloc => reject hloc
  · refine get.bind fun s _ => current.bind fun token _ => ?_
    have hitem : (if startsObject token = true then Parser.declaration else call .statement).Points P
        fun _ => True := ite (fun _ => declaration) fun _ => h .statement rfl trivial
    refine hitem.attempt.bind fun item hr => ?_
    cases item with
    | ok stmt => exact hitems.bind fun _ _ => pure trivial
    | error r =>
      refine (report hr).bind fun _ _ => (modify fun s hs => ?_).bind fun _ _ => hitems
      exact hs.read (resume_suffix _ _ _)

theorem statement_points (b : Nat) : CallsPoint P (fun r => r.reader b) .statement := by
  induction b with
  | zero => intro r _ _ s _; cases r <;> trivial
  | succ b ih =>
    intro r hr _
    show (r.reader (b + 1)).Points P (r.Gives P)
    rw [reader_succ]
    cases r with
    | statement => exact points_statement ih
    | items => exact points_items ih
    | assign | chain | operand | chainFrom | unary | subscripted | subscripts | primary | arguments
    | lengths => cases hr

end Routine

/-! ## Objects -/

namespace Parser.Points

variable {P : Loc → Prop}

theorem block : Parser.block.Points P fun _ => True :=
  get.bind fun s _ => Points.bind
    (Routine.statement_points (Parser.blockBudget s.rest.length) .items rfl trivial)
    fun _ _ => pure trivial

theorem parameters (budget : Nat) : (Parser.parameters budget).Points P fun _ => True := by
  induction budget with
  | zero => intro s _; trivial
  | succ budget ih =>
    refine typeName.bind fun base _ => (declarator base).bind fun d hd => ?_
    refine (declareLocal d.ty.decay hd).bind fun v _ => acceptElse (pure trivial) ?_
    exact (expect ",").bind fun _ _ => ih.bind fun _ _ => pure trivial

theorem header : Parser.header.Points P fun h => P h.name.loc := by
  refine typeName.bind fun base _ => (pointers base).bind fun result _ => ?_
  refine identifier.bind fun name hname => (expect "(").bind fun _ _ => get.bind fun s _ => ?_
  have hend : ∀ params : List Local,
      (if maxArgs < params.length then Parser.reject name.loc (.tooManyParameters name.text)
        else Pure.pure ⟨name, result, params⟩ : Parser Parser.Header).Points P
        fun h => P h.name.loc := fun params => ite (fun _ => reject hname) fun _ => pure hname
  exact acceptElse (hend []) ((parameters _).bind fun params _ => hend params)

theorem prototype {h : Parser.Header} (hname : P h.name.loc) :
    (Parser.prototype h).Points P fun _ => True :=
  get.bind fun _ _ => ite (fun _ => reject hname) fun _ =>
    modify fun _ hs => { hs with }

theorem definition {h : Parser.Header} (hname : P h.name.loc) :
    (Parser.definition h).Points P fun _ => True := by
  refine get.bind fun _ _ => ite (fun _ => reject hname) fun _ => ?_
  refine Points.bind (modify fun _ hs => { hs with }) fun _ _ => ?_
  refine (expect "\x7b").bind fun _ _ => block.bind fun body _ => ?_
  exact modify fun _ hs => { hs with }

theorem function : Parser.function.Points P fun _ => True :=
  header.bind fun _ hname => acceptElse (prototype hname) (definition hname)

theorem declareGlobal {d : Parser.Declared} (hname : P d.name.loc) :
    (Parser.declareGlobal d).Points P fun _ => True :=
  get.bind fun _ _ => ite (fun _ => reject hname) fun _ =>
    modify fun _ hs => { hs with }

theorem globalDeclarators (base : Ty) (budget : Nat) : ∀ first,
    (Parser.globalDeclarators budget base first).Points P fun _ => True := by
  induction budget with
  | zero => intro first s _; trivial
  | succ budget ih =>
    intro first
    refine acceptElse (pure trivial) ((separator first).bind fun _ _ => ?_)
    refine (declarator base).bind fun d hd => (sees "=").bind fun _ _ => ite (fun _ => ?_) fun _ => ?_
    · exact here.bind fun _ hloc => reject hloc
    · exact (declareGlobal hd).bind fun _ _ => ih false

theorem globals : Parser.globals.Points P fun _ => True :=
  typeName.bind fun base _ => get.bind fun _ _ => globalDeclarators base _ true

theorem recovering {p : Parser Unit} {skip : List Token → List Token → List Token}
    (hp : p.Points P fun _ => True) (hskip : ∀ start rest, skip start rest <:+ rest) :
    (Parser.recovering p skip).Points P fun _ => True := by
  refine get.bind fun s _ => hp.attempt.bind fun result hr => ?_
  cases result with
  | ok _ => exact pure trivial
  | error r => exact (report hr).bind fun _ _ => modify fun _ hs => hs.read (hskip _ _)

theorem object : Parser.object.Points P fun _ => True := by
  refine Points.bind (modify fun _ hs => { hs with }) fun _ _ => ?_
  refine get.bind fun s _ => ite (fun _ => ?_) fun _ => ?_
  · exact recovering function skipFunction_suffix
  · exact recovering globals (resume_suffix startsObject)

theorem objects (budget : Nat) : (Parser.objects budget).Points P fun _ => True := by
  induction budget with
  | zero => intro s _; trivial
  | succ budget ih =>
    exact atEnd.bind fun _ _ => ite (fun _ => pure trivial) fun _ => object.bind fun _ _ => ih

theorem settlePending : Parser.settlePending.Points P fun _ => True := by
  refine modify fun s hs => ⟨hs.rest, hs.stop, ?_, List.forall_mem_nil _⟩
  refine List.forall_mem_append.2 ⟨hs.issues, fun issue hissue => ?_⟩
  obtain ⟨c, hc, hissue⟩ := List.mem_flatMap.1 hissue
  obtain ⟨hloc, hargs⟩ := hs.pending c hc
  exact issues_readAt hloc hargs issue hissue

theorem unit : Parser.unit.Points P fun _ => True :=
  get.bind fun _ _ => (objects _).bind fun _ _ => settlePending

end Parser.Points

/-- Before the first token, the end is the place of a token too. -/
theorem State.located_ofTokens {tokens : List Token} (h : tokens ≠ []) :
    (State.ofTokens tokens).Located fun loc => ∃ t ∈ tokens, t.loc = loc := by
  refine ⟨fun t ht => ?_, ?_, List.forall_mem_nil _, List.forall_mem_nil _⟩
  · exact ⟨t, (List.takeWhile_prefix _).subset ht, rfl⟩
  · simp only [State.ofTokens]
    split
    · rename_i mark hmark
      exact ⟨mark, List.mem_of_find?_eq_some hmark, rfl⟩
    · rw [List.getLast?_eq_some_getLast h]
      exact ⟨tokens.getLast h, List.getLast_mem h, rfl⟩

/-- Whatever is recorded while tokens are read stands where one of them stands. -/
theorem parse_points {tokens : List Token} {parsed : Parsed} (h : tokens ≠ [])
    (hparsed : parse tokens = .ok parsed) :
    ∀ issue ∈ parsed.issues, issue.ReadAt fun loc => ∃ t ∈ tokens, t.loc = loc := by
  have hunit := Parser.Points.unit _ (State.located_ofTokens h)
  unfold parse at hparsed
  cases hrun : Parser.unit.run (.ofTokens tokens) with
  | ok u s =>
    rw [hrun] at hunit hparsed
    cases hparsed
    exact hunit.1.issues
  | rejected r s =>
    rw [hrun] at hunit hparsed
    cases hparsed
    exact hunit.1.issues
  | faulted f => rw [hrun] at hparsed; cases hparsed

end Parse

/-! ## Source texts -/

/-- Only blanks start with a blank. -/
theorem Segment.Whole.not_blank {s : Segment} {behind : List Char} (h : s.Whole behind)
    (hs : ∀ c, s ≠ .blank c) : ∃ c cs, s.text = c :: cs ∧ ¬Segment.Blank c := by
  obtain ⟨c, cs, htext, hfirst⟩ := Segment.first_of_whole h
  refine ⟨c, cs, htext, fun hblank => hs c ?_⟩
  unfold Segment.first at hfirst
  rw [if_pos (Segment.isBlank_iff.2 hblank)] at hfirst
  exact (congrArg Prod.fst hfirst).symm

namespace Diagnostic

/-- The diagnostic has the position of a segment of the text, and its caret is shown below the first
character of the segment. -/
def Under (d : Diagnostic) (source : String) (s : Segment) : Prop :=
  ∃ front back c cs, Segment.Covers (front ++ s :: back) source.toList ∧ s.text = c :: cs ∧
    d.loc = Loc.behind (front.flatMap Segment.text) ∧
    d.PointsAt source (Source.lastLine (front.flatMap Segment.text)) c

/-- The diagnostic is shown at what it is about: a segment that is no token, a token, or the end. -/
inductive Marks (d : Diagnostic) (source : String) : Prop where
  | flaw {s : Segment} {p : LexicalProblem} : d.kind = .lexical → s.Flawed p →
    d.message = p.message → d.Under source s → Marks d source
  | token {s : Segment} {t : Token} : d.kind ≠ .lexical → s.Spells t →
    t ∈ (Source.tokenize source).tokens → d.loc = t.loc → d.Under source s → Marks d source
  | stop : d.kind ≠ .lexical → d.loc = Loc.behind source.toList →
    d.loc.col ≤ (Source.line source d.loc.row).length + 1 → Marks d source

theorem under {d : Diagnostic} {source : String} {front back : List Segment} {s : Segment}
    (hcovers : Segment.Covers (front ++ s :: back) source.toList) (hs : ∀ c, s ≠ .blank c)
    (hloc : d.loc = Loc.behind (front.flatMap Segment.text)) : d.Under source s := by
  obtain ⟨c, cs, htext, hblank⟩ := hcovers.whole.not_blank hs
  have hsource : source.toList =
      front.flatMap Segment.text ++ c :: (cs ++ back.flatMap Segment.text) := by
    rw [← hcovers.text_eq, List.flatMap_append, List.flatMap_cons, htext, List.cons_append]
  refine ⟨front, back, c, cs, hcovers, htext, hloc, pointsAt hsource ?_ ?_ hloc⟩
  · rintro rfl
    exact hblank (Segment.isBlank_iff.1 rfl)
  · rintro rfl
    exact hblank (Segment.isBlank_iff.1 rfl)

end Diagnostic

/-- What a compilation reports was found in the characters or in the tokens. -/
theorem compile_reports (source : String) :
    ∃ parsed c, Parse.parse (Source.tokenize source).tokens = .ok parsed ∧ compile source = .ok c ∧
      c.issues ⊆ (Source.tokenize source).issues ++ parsed.issues := by
  obtain ⟨parsed, hparsed, hobjects⟩ := Parse.parse_sound (Source.nonnegative_tokenize source)
  obtain ⟨asm, hasm⟩ := Program.emit_ok hobjects
  unfold compile
  simp only [hparsed, bind, Except.bind, pure, Except.pure, finish, hasm]
  split
  · exact ⟨parsed, _, rfl, rfl, List.subset_append_left _ _⟩
  · split
    · exact ⟨parsed, _, rfl, rfl, List.Subset.refl _⟩
    · exact ⟨parsed, _, rfl, rfl, List.Subset.refl _⟩

/-- **Every diagnostic points at the offending text.** Tokens stand behind the rows and columns in
front of them, one behind the other, and the end mark stands at the end; lexical issues stand where
their segments begin; what is found while the tokens are read stands where a token stands. So each
diagnostic of a compilation is shown below the first character of the token or segment that it is
about, or not further than one column behind the last line. -/
theorem compile_points (source : String) :
    ∃ segments tokens parsed c,
      Segment.Covers segments source.toList ∧
      Source.Lexes [] segments tokens (Source.tokenize source).issues ∧
      (Source.tokenize source).tokens = tokens ++ [.endMark (Loc.behind source.toList)] ∧
      ((Source.tokenize source).tokens.map Token.loc).Pairwise Loc.Before ∧
      Parse.parse (Source.tokenize source).tokens = .ok parsed ∧
      (∀ issue ∈ parsed.issues,
        ∃ t ∈ (Source.tokenize source).tokens, t.loc = issue.toDiagnostic.loc) ∧
      compile source = .ok c ∧ ∀ d ∈ c.diagnostics, d.Marks source := by
  obtain ⟨tokens, hlexes, htokens⟩ := Source.lexes_tokenize source
  obtain ⟨parsed, c, hparsed, hcompile, hissues⟩ := compile_reports source
  have hcovers := Segment.covers_split source.toList
  have hread := Parse.parse_points (by simp [htokens]) hparsed
  refine ⟨_, tokens, parsed, c, hcovers, hlexes, htokens, ?_, hparsed,
    fun issue hissue => (hread issue hissue).toDiagnostic.1, hcompile, ?_⟩
  · have hincreasing := hlexes.increasing hcovers.text_ne_nil
    rw [List.nil_append, hcovers.text_eq] at hincreasing
    rw [htokens, List.map_append]
    exact hincreasing
  refine List.forall_mem_map.2 fun issue hissue => ?_
  rcases List.mem_append.1 (hissues hissue) with hissue | hissue
  · obtain ⟨front, s, back, p, hsplit, hflawed, rfl⟩ := hlexes.issue_at hissue
    exact .flaw rfl hflawed rfl
      (Diagnostic.under (hsplit ▸ hcovers) (fun c hs => by rw [hs] at hflawed; cases hflawed) rfl)
  · obtain ⟨⟨t, ht, hloc⟩, hkind⟩ := (hread issue hissue).toDiagnostic
    rw [htokens] at ht
    rcases List.mem_append.1 ht with ht | ht
    · obtain ⟨front, s, back, hsplit, hspells, hplace⟩ := hlexes.token_at ht
      refine .token hkind hspells (htokens ▸ List.mem_append_left _ ht) hloc.symm
        (Diagnostic.under (hsplit ▸ hcovers) ?_ (hloc.symm.trans hplace))
      intro c hs
      rw [hs] at hspells
      cases hspells
    · rw [List.mem_singleton.1 ht] at hloc
      refine .stop hkind hloc.symm ?_
      rw [← hloc]
      have hlast := Source.length_lastLine_le source
      simp only [Token.endMark, Loc.behind] at hlast ⊢
      omega

end WordC
