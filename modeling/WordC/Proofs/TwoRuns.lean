import Mathlib.Data.List.Forall2
import WordC.Proofs.Mirroring
import WordC.Proofs.Safety

/-!
# Positions have no influence

Texts that are the same token by token, but have their tokens at other places, are read and compiled
in the same way. Each reader is compared with itself: one lemma for each of them, and an induction
on the budget where they are recursive.

* `expressionsMirrored`, `statementsMirrored`: the recursive readers do not look at positions.
* `Parser.Mirrors.object`: nor do those of functions and global variables, also where they recover.
* `parse_mirrors`, `compile_mirrors`: what this comes to for token lists and for source texts.
* `compile_ignores_positions`: both together, in terms of what a user sees.
-/
namespace WordC

namespace Parse.Parser

/-! ## Expressions -/

/-- Readers of expressions, with this budget, do not look at positions. -/
structure ExpressionsMirrored (budget : Nat) : Prop where
  assign : Mirrors Expr.Mirrors (assign budget) (assign budget)
  chain (level : Level) : Mirrors Expr.Mirrors (chain budget level) (chain budget level)
  operand (level : Level) : Mirrors Expr.Mirrors (operand budget level) (operand budget level)
  chainFrom (level : Level) {lhs lhs' : Expr} : lhs.Mirrors lhs' →
    Mirrors Expr.Mirrors (chainFrom budget level lhs) (chainFrom budget level lhs')
  unary : Mirrors Expr.Mirrors (unary budget) (unary budget)
  subscripted : Mirrors Expr.Mirrors (subscripted budget) (subscripted budget)
  subscripts {base base' : Expr} : base.Mirrors base' →
    Mirrors Expr.Mirrors (subscripts budget base) (subscripts budget base')
  primary : Mirrors Expr.Mirrors (primary budget) (primary budget)
  arguments : Mirrors Expr.MirrorsAll (arguments budget) (arguments budget)

namespace ExpressionsMirrored

variable {budget : Nat}

theorem assign_succ (h : ExpressionsMirrored budget) :
    Mirrors Expr.Mirrors (Parser.assign (budget + 1)) (Parser.assign (budget + 1)) := by
  rw [Parser.assign]
  refine (h.chain .equality).bind fun target target' htarget => ?_
  refine Mirrors.here.bind fun loc loc' _ => ?_
  refine .acceptElse ?_ (.pure htarget)
  refine .ite (by rw [htarget.isLvalue]) ?_ (.reject _ _ _)
  exact h.assign.bind fun value value' hvalue => .mkAssign htarget hvalue

theorem chain_succ (h : ExpressionsMirrored budget) (level : Level) :
    Mirrors Expr.Mirrors (Parser.chain (budget + 1) level) (Parser.chain (budget + 1) level) := by
  rw [Parser.chain]
  exact (h.operand level).bind fun first first' hfirst => h.chainFrom level hfirst

theorem operand_succ (h : ExpressionsMirrored budget) (level : Level) :
    Mirrors Expr.Mirrors (Parser.operand (budget + 1) level)
      (Parser.operand (budget + 1) level) := by
  rw [Parser.operand]
  split
  · exact h.chain _
  · exact h.unary

theorem chainFrom_succ (h : ExpressionsMirrored budget) (level : Level) {lhs lhs' : Expr}
    (hlhs : lhs.Mirrors lhs') : Mirrors Expr.Mirrors (Parser.chainFrom (budget + 1) level lhs)
      (Parser.chainFrom (budget + 1) level lhs') := by
  rw [Parser.chainFrom, Parser.chainFrom]
  refine Mirrors.current.bind fun token token' htoken => ?_
  have hop : level.operator? token = level.operator? token' := by
    simp only [Level.operator?, htoken.is]
  rw [hop]
  split
  · rename_i op _
    refine Mirrors.advance.bind fun _ _ _ => ?_
    refine (h.operand level).bind fun rhs rhs' hrhs => ?_
    refine (Mirrors.build op hlhs hrhs).bind fun node node' hnode => ?_
    exact h.chainFrom level hnode
  · exact .pure hlhs

theorem unary_succ (h : ExpressionsMirrored budget) :
    Mirrors Expr.Mirrors (Parser.unary (budget + 1)) (Parser.unary (budget + 1)) := by
  rw [Parser.unary]
  refine Mirrors.here.bind fun loc loc' _ => ?_
  refine .acceptElse h.unary ?_
  refine .acceptElse (h.unary.bind fun operand operand' hoperand => .mkUnary .neg hoperand) ?_
  refine .acceptElse (h.unary.bind fun operand operand' hoperand => ?_) ?_
  · exact .ite (by rw [hoperand.isLvalue]) (.mkUnary .addr hoperand) (.reject _ _ _)
  refine .acceptElse (h.unary.bind fun operand operand' hoperand => .mkUnary .deref hoperand) ?_
  exact h.subscripted

theorem subscripted_succ (h : ExpressionsMirrored budget) :
    Mirrors Expr.Mirrors (Parser.subscripted (budget + 1)) (Parser.subscripted (budget + 1)) := by
  rw [Parser.subscripted]
  exact h.primary.bind fun first first' hfirst => h.subscripts hfirst

theorem subscripts_succ (h : ExpressionsMirrored budget) {base base' : Expr}
    (hbase : base.Mirrors base') : Mirrors Expr.Mirrors (Parser.subscripts (budget + 1) base)
      (Parser.subscripts (budget + 1) base') := by
  rw [Parser.subscripts, Parser.subscripts]
  refine Mirrors.here.bind fun loc loc' _ => ?_
  refine .acceptElse ?_ (.pure hbase)
  refine h.assign.bind fun index index' hindex => (Mirrors.expect "]").bind fun _ _ _ => ?_
  refine (Mirrors.plus hbase hindex).bind fun address address' haddress => ?_
  refine (Mirrors.mkUnary .deref haddress).bind fun element element' helement => ?_
  exact h.subscripts helement

theorem primary_succ (h : ExpressionsMirrored budget) :
    Mirrors Expr.Mirrors (Parser.primary (budget + 1)) (Parser.primary (budget + 1)) := by
  rw [Parser.primary]
  refine Mirrors.current.bind fun token token' htoken => ?_
  refine .acceptElse ?_ (.acceptElse ?_ ?_)
  · exact h.assign.bind fun inner inner' hinner =>
      (Mirrors.expect ")").bind fun _ _ _ => .pure hinner
  · refine h.unary.bind fun operand operand' hoperand => ?_
    rw [hoperand.ty]
    refine (Mirrors.ofFault _).bind fun size size' hsize => .pure ?_
    rw [hsize]
    exact .mkNum _ _ size'
  rw [htoken.kind, htoken.lexeme, htoken.describe]
  refine .ite Iff.rfl ?_ (.ite Iff.rfl ?_ (.reject _ _ _))
  · refine Mirrors.advance.bind fun _ _ _ => .acceptElse ?_ (.variableOf htoken)
    refine .acceptElse ?_ ?_
    · exact (Mirrors.pure (R := Expr.MirrorsAll) rfl).bind fun args args' hargs => .callOf _ hargs
    · exact h.arguments.bind fun args args' hargs => .callOf _ hargs
  · refine Mirrors.number.bind fun value value' hvalue => .pure ?_
    rw [hvalue]
    exact .mkNum _ _ value'

theorem arguments_succ (h : ExpressionsMirrored budget) :
    Mirrors Expr.MirrorsAll (Parser.arguments (budget + 1)) (Parser.arguments (budget + 1)) := by
  rw [Parser.arguments]
  refine h.assign.bind fun arg arg' harg => ?_
  refine .acceptElse (.pure (harg.cons rfl)) ?_
  refine (Mirrors.expect ",").bind fun _ _ _ => ?_
  exact h.arguments.bind fun more more' hmore => .pure (harg.cons hmore)

end ExpressionsMirrored

theorem expressionsMirrored (budget : Nat) : ExpressionsMirrored budget := by
  induction budget with
  | zero => constructor <;> intros <;> exact .fault .exhausted
  | succ budget ih =>
    exact ⟨ih.assign_succ, ih.chain_succ, ih.operand_succ, ih.chainFrom_succ, ih.unary_succ,
      ih.subscripted_succ, ih.subscripts_succ, ih.primary_succ, ih.arguments_succ⟩

theorem Mirrors.expression : Mirrors Expr.Mirrors expression expression := by
  refine get fun s t hst => ?_
  rw [hst.length]
  exact (expressionsMirrored _).assign

/-! ## Declarators -/

namespace Mirrors

theorem pointers (ty : Ty) : Mirrors Eq (pointers ty) (pointers ty) := by
  intro s t hst
  have hread := pointersFrom_unplaced s.rest ty
  rw [hst.rest, pointersFrom_unplaced t.rest ty] at hread
  obtain ⟨hty, hrest⟩ := Prod.mk.inj hread
  exact .ok hty.symm (hst.read hrest.symm)

theorem arrayOf (base : Ty) (len : Int) (loc loc' : Loc) :
    Mirrors Eq (arrayOf base len loc) (arrayOf base len loc') := by
  refine (ofFault _).bind fun size size' hsize => ?_
  rw [hsize]
  split
  · exact pure rfl
  · exact reject _ _ _

theorem lengths (budget : Nat) (ty : Ty) : Mirrors Eq (lengths budget ty) (lengths budget ty) := by
  induction budget with
  | zero => exact fault _
  | succ budget ih =>
    refine acceptElse ?_ (pure rfl)
    refine here.bind fun loc loc' _ => number.bind fun len len' hlen => ?_
    refine (expect "]").bind fun _ _ _ => ih.bind fun element element' helement => ?_
    rw [hlen, helement]
    exact arrayOf element' len' loc loc'

theorem suffixes (ty : Ty) : Mirrors Eq (suffixes ty) (suffixes ty) := by
  refine get fun s t hst => ?_
  rw [hst.length]
  exact lengths _ ty

theorem typeName : Mirrors Eq typeName typeName := (expect "int").bind fun _ _ _ => pure rfl

end Mirrors

/-- The same name is declared with the same type. -/
structure Declared.Mirrors (d d' : Declared) : Prop where
  name : d.name.Mirrors d'.name
  ty : d.ty = d'.ty

namespace Mirrors

theorem declarator (base : Ty) : Mirrors Declared.Mirrors (declarator base) (declarator base) := by
  refine (pointers base).bind fun pointed pointed' hpointed => ?_
  refine identifier.bind fun name name' hname => ?_
  rw [hpointed]
  exact (suffixes pointed').bind fun ty ty' hty => pure ⟨hname, hty⟩

theorem declareLocal {name name' : Name} (h : name.Mirrors name') (ty : Ty) :
    Mirrors Eq (declareLocal name ty) (declareLocal name' ty) := by
  refine get fun s t hst => ?_
  rw [hst.scope, h.text]
  refine ite Iff.rfl (reject _ _ _) ?_
  refine (ofFault _).bind fun size size' hsize => ?_
  rw [hsize]
  split
  · exact reject _ _ _
  · refine ite Iff.rfl ?_ (reject _ _ _)
    refine (ofFault _).bind fun offset offset' hoffset => ?_
    rw [hoffset]
    dsimp only
    refine (modify fun s t hst => ?_).bind fun _ _ _ => pure rfl
    exact { hst with scope := by rw [hst.scope] }

/-! ## Statements -/

theorem separator (first : Bool) : Mirrors Eq (separator first) (separator first) := by
  cases first with
  | true => exact pure rfl
  | false => exact expect ","

theorem initializer (v : Local) (loc loc' : Loc) :
    Mirrors Stmt.MirrorsAll (initializer v loc) (initializer v loc') := by
  refine here.bind fun eqLoc eqLoc' _ => acceptElse ?_ (pure rfl)
  refine expression.bind fun value value' hvalue => ?_
  refine (mkAssign (.mkVar _ _ _) hvalue).bind fun node node' hnode => pure ?_
  exact (Stmt.Mirrors.eval hnode.some).cons rfl

theorem declarators (budget : Nat) (base : Ty) (first : Bool) :
    Mirrors Stmt.MirrorsAll (declarators budget base first) (declarators budget base first) := by
  induction budget generalizing first with
  | zero => exact fault _
  | succ budget ih =>
    refine acceptElse (pure rfl) ?_
    refine (separator first).bind fun _ _ _ => ?_
    refine (declarator base).bind fun d d' hd => ?_
    rw [hd.ty]
    refine (declareLocal hd.name _).bind fun v v' hv => ?_
    rw [hv]
    refine (initializer v' _ _).bind fun init init' hinit => ?_
    exact (ih false).bind fun more more' hmore => pure (hinit.append hmore)

theorem declaration : Mirrors Stmt.Mirrors declaration declaration := by
  refine typeName.bind fun base base' hbase => ?_
  refine get fun s t hst => ?_
  rw [hbase, hst.length]
  exact (declarators _ base' true).bind fun inits inits' hinits => pure (.block hinits)

theorem expressionStatement : Mirrors Stmt.Mirrors expressionStatement expressionStatement := by
  refine acceptElse (pure rfl) ?_
  refine expression.bind fun e e' he => ?_
  exact (expect ";").bind fun _ _ _ => pure (.eval he.some)

theorem expressionUnless (text : String) :
    Mirrors Expr.MirrorsOption (expressionUnless text) (expressionUnless text) := by
  refine seesElse (pure rfl) ?_
  exact expression.bind fun e e' he => pure he.some

end Mirrors

/-- Readers of statements, with this budget, do not look at positions. -/
structure StatementsMirrored (budget : Nat) : Prop where
  statement : Mirrors Stmt.Mirrors (statement budget) (statement budget)
  items : Mirrors Stmt.MirrorsAll (items budget) (items budget)

namespace StatementsMirrored

variable {budget : Nat}

theorem statement_succ (h : StatementsMirrored budget) :
    Mirrors Stmt.Mirrors (Parser.statement (budget + 1)) (Parser.statement (budget + 1)) := by
  -- The part of a `for` behind its first part.
  have hfor {init init' : Stmt} (hinit : init.Mirrors init') : Mirrors Stmt.Mirrors
      (do
        let cond ← expressionUnless ";"
        expect ";"
        let step ← expressionUnless ")"
        expect ")"
        let body ← Parser.statement budget
        return Stmt.loop (some init) cond step body)
      (do
        let cond ← expressionUnless ";"
        expect ";"
        let step ← expressionUnless ")"
        expect ")"
        let body ← Parser.statement budget
        return Stmt.loop (some init') cond step body) := by
    refine (Mirrors.expressionUnless ";").bind fun cond cond' hcond => ?_
    refine (Mirrors.expect ";").bind fun _ _ _ => ?_
    refine (Mirrors.expressionUnless ")").bind fun step step' hstep => ?_
    refine (Mirrors.expect ")").bind fun _ _ _ => ?_
    exact h.statement.bind fun body body' hbody => .pure (.forLoop hinit hcond hstep hbody)
  rw [Parser.statement]
  refine .acceptElse ?_ (.acceptElse ?_ (.acceptElse ?_ (.acceptElse ?_ (.acceptElse ?_ ?_))))
  · refine (Mirrors.expressionUnless ";").bind fun value value' hvalue => ?_
    exact (Mirrors.expect ";").bind fun _ _ _ => .pure (.ret hvalue)
  · refine (Mirrors.expect "(").bind fun _ _ _ => Mirrors.expression.bind fun cond cond' hcond => ?_
    refine (Mirrors.expect ")").bind fun _ _ _ => h.statement.bind fun onTrue onTrue' htrue => ?_
    refine .acceptElse ?_ (.pure (.ite hcond htrue))
    exact h.statement.bind fun onFalse onFalse' hfalse => .pure (.iteElse hcond htrue hfalse)
  · refine (Mirrors.expect "(").bind fun _ _ _ => .seesElse ?_ ?_
    · exact Mirrors.declaration.bind fun init init' hinit => hfor hinit
    · exact Mirrors.expressionStatement.bind fun init init' hinit => hfor hinit
  · refine (Mirrors.expect "(").bind fun _ _ _ => Mirrors.expression.bind fun cond cond' hcond => ?_
    refine (Mirrors.expect ")").bind fun _ _ _ => ?_
    exact h.statement.bind fun body body' hbody => .pure (.whileLoop hcond.some hbody)
  · exact h.items.bind fun stmts stmts' hstmts => .pure (.block hstmts)
  · exact Mirrors.expressionStatement

/-- After a rejection both runs resume at the same token, since what starts an item does not depend
on its position. -/
theorem items_succ (h : StatementsMirrored budget) :
    Mirrors Stmt.MirrorsAll (Parser.items (budget + 1)) (Parser.items (budget + 1)) := by
  rw [Parser.items]
  refine .acceptElse (.pure rfl) ?_
  refine Mirrors.atEnd.bind fun b b' hb => .ite (by rw [hb]) ?_ ?_
  · exact Mirrors.here.bind fun loc loc' _ => .reject _ _ _
  refine .get fun start start' hstart => Mirrors.current.bind fun token token' htoken => ?_
  refine .attempt (R := Stmt.Mirrors) ?_ (fun stmt stmt' hstmt => ?_) fun r r' hr => ?_
  · refine .ite ?_ Mirrors.declaration h.statement
    rw [startsObject, startsObject, htoken.is]
  · exact h.items.bind fun more more' hmore => .pure (hstmt.cons hmore)
  · refine (Mirrors.report hr).bind fun _ _ _ => ?_
    refine (Mirrors.modify fun s t hst => hst.read ?_).bind fun _ _ _ => h.items
    rw [map_unplaced_resume fun _ => rfl, map_unplaced_resume fun _ => rfl, hstart.rest, hst.rest]

end StatementsMirrored

theorem statementsMirrored (budget : Nat) : StatementsMirrored budget := by
  induction budget with
  | zero => constructor <;> exact .fault .exhausted
  | succ budget ih => exact ⟨ih.statement_succ, ih.items_succ⟩

theorem Mirrors.block : Mirrors Stmt.Mirrors block block := by
  refine get fun s t hst => ?_
  rw [hst.length]
  exact (statementsMirrored _).items.bind fun stmts stmts' hstmts => pure (.block hstmts)

/-! ## Objects -/

/-- The same function is announced. -/
structure Header.Mirrors (h h' : Header) : Prop where
  name : h.name.Mirrors h'.name
  result : h.result = h'.result
  params : h.params = h'.params

theorem Header.Mirrors.paramTypes {h h' : Header} (hh : h.Mirrors h') :
    h.paramTypes = h'.paramTypes := by
  rw [Header.paramTypes, Header.paramTypes, hh.params]

namespace Mirrors

theorem parameters (budget : Nat) : Mirrors Eq (parameters budget) (parameters budget) := by
  induction budget with
  | zero => exact fault _
  | succ budget ih =>
    refine typeName.bind fun base base' hbase => ?_
    rw [hbase]
    refine (declarator base').bind fun d d' hd => ?_
    rw [hd.ty]
    refine (declareLocal hd.name _).bind fun v v' hv => acceptElse (pure (by rw [hv])) ?_
    refine (expect ",").bind fun _ _ _ => ih.bind fun more more' hmore => pure ?_
    rw [hv, hmore]

theorem header : Mirrors Header.Mirrors header header := by
  have hcheck {name name' : Name} (hname : name.Mirrors name') {result result' : Ty}
      (hresult : result = result') (params : List Local) : Mirrors Header.Mirrors
      (if maxArgs < params.length then Parser.reject name.loc (.tooManyParameters name.text)
        else Pure.pure ⟨name, result, params⟩)
      (if maxArgs < params.length then Parser.reject name'.loc (.tooManyParameters name'.text)
        else Pure.pure ⟨name', result', params⟩) := by
    rw [hname.text]
    exact ite Iff.rfl (reject _ _ _) (pure ⟨hname, hresult, rfl⟩)
  refine typeName.bind fun base base' hbase => ?_
  rw [hbase]
  refine (pointers base').bind fun result result' hresult => ?_
  refine identifier.bind fun name name' hname => (expect "(").bind fun _ _ _ => ?_
  refine get fun s t hst => acceptElse (hcheck hname hresult []) ?_
  rw [hst.length]
  refine (parameters _).bind fun params params' hparams => ?_
  rw [hparams]
  exact hcheck hname hresult params'

theorem prototype {h h' : Header} (hh : h.Mirrors h') :
    Mirrors Eq (prototype h) (prototype h') := by
  refine get fun s t hst => ?_
  rw [hh.name.text, hst.isGlobal]
  refine ite Iff.rfl (reject _ _ _) (modify fun s t hst => ?_)
  exact { hst with signatures := by rw [hst.signatures, hh.paramTypes] }

theorem definition {h h' : Header} (hh : h.Mirrors h') :
    Mirrors Eq (definition h) (definition h') := by
  refine get fun s t hst => ?_
  rw [hh.name.text, hst.isGlobal, hst.signatures]
  refine ite Iff.rfl (reject _ _ _) ?_
  refine (modify fun s t hst => ?_).bind fun _ _ _ => ?_
  · exact { hst with signatures := by rw [hst.signatures, hh.paramTypes] }
  refine (expect "\x7b").bind fun _ _ _ => block.bind fun body body' hbody => ?_
  refine modify fun s t hst => { hst with objects := ?_ }
  have hunplaced : body.unplaced = body'.unplaced := hbody
  simp only [List.map_append, List.map_cons, List.map_nil, Object.unplaced, Function.unplaced,
    hst.objects, hst.scope, hh.params, hh.result, hunplaced]

theorem function : Mirrors Eq function function :=
  header.bind fun _ _ hh => acceptElse (prototype hh) (definition hh)

theorem declareGlobal {d d' : Declared} (hd : d.Mirrors d') :
    Mirrors Eq (declareGlobal d) (declareGlobal d') := by
  refine get fun s t hst => ?_
  rw [hd.name.text, hd.ty, hst.isGlobal, hst.signatures]
  refine ite Iff.rfl (reject _ _ _) (modify fun s t hst => ?_)
  exact { hst with objects := by simp only [List.map_append, hst.objects] }

theorem globalDeclarators (budget : Nat) (base : Ty) (first : Bool) :
    Mirrors Eq (globalDeclarators budget base first) (globalDeclarators budget base first) := by
  induction budget generalizing first with
  | zero => exact fault _
  | succ budget ih =>
    refine acceptElse (pure rfl) ?_
    refine (separator first).bind fun _ _ _ => (declarator base).bind fun d d' hd => ?_
    refine seesElse ?_ ?_
    · exact here.bind fun _ _ _ => reject _ _ _
    · exact (declareGlobal hd).bind fun _ _ _ => ih false

theorem globals : Mirrors Eq globals globals := by
  refine typeName.bind fun base base' hbase => get fun s t hst => ?_
  rw [hbase, hst.length]
  exact globalDeclarators _ base' true

/-! ## Whole texts -/

theorem recovering {p : Parser Unit} (hp : Mirrors Eq p p)
    {skip : List Token → List Token → List Token}
    (hskip : ∀ start rest, (skip start rest).map Token.unplaced =
      skip (start.map Token.unplaced) (rest.map Token.unplaced)) :
    Mirrors Eq (recovering p skip) (recovering p skip) := by
  refine get fun start start' hstart => attempt hp (fun _ _ _ => pure rfl) fun r r' hr => ?_
  refine (report hr).bind fun _ _ _ => modify fun s t hst => hst.read ?_
  rw [hskip, hskip, hstart.rest, hst.rest]

theorem object : Mirrors Eq object object := by
  refine (modify fun s t hst => ?_).bind fun _ _ _ => ?_
  · exact { hst with scope := rfl }
  refine get fun s t hst => ?_
  rw [← startsFunction_unplaced, hst.rest, startsFunction_unplaced]
  refine ite Iff.rfl ?_ ?_
  · exact recovering function map_unplaced_skipFunction
  · exact recovering globals (map_unplaced_resume fun _ => rfl)

theorem objects (budget : Nat) : Mirrors Eq (objects budget) (objects budget) := by
  induction budget with
  | zero => exact fault _
  | succ budget ih =>
    refine atEnd.bind fun b b' hb => ite (by rw [hb]) (pure rfl) ?_
    exact object.bind fun _ _ _ => ih

theorem settlePending : Mirrors Eq settlePending settlePending := by
  refine modify fun s t hst => { hst with issues := ?_, pending := rfl }
  simp only [List.map_append, List.map_flatMap, PendingCall.map_unplaced_issues, hst.issues,
    hst.signatures]
  rw [← List.flatMap_map, hst.pending, List.flatMap_map]

theorem unit : Mirrors Eq unit unit := by
  refine get fun s t hst => ?_
  rw [hst.length]
  exact (objects _).bind fun _ _ _ => settlePending

end Mirrors

end Parse.Parser

namespace Parse

theorem map_unplaced_eq_iff {ts ts' : List Token} :
    ts.map Token.unplaced = ts'.map Token.unplaced ↔ List.Forall₂ Token.Mirrors ts ts' := by
  rw [← List.forall₂_eq_eq_eq, List.forall₂_map_left_iff, List.forall₂_map_right_iff]
  simp only [Token.unplaced_eq_iff]

theorem State.Mirrors.ofTokens {ts ts' : List Token} (h : List.Forall₂ Token.Mirrors ts ts') :
    (State.ofTokens ts).Mirrors (State.ofTokens ts') where
  rest := by
    have hread (us : List Token) : (us.takeWhile (·.kind != .eof)).map Token.unplaced =
        (us.map Token.unplaced).takeWhile (·.kind != .eof) := by
      rw [List.takeWhile_map]
      rfl
    rw [State.ofTokens, State.ofTokens, hread, hread, map_unplaced_eq_iff.2 h]
  issues := rfl
  objects := rfl
  signatures := rfl
  pending := rfl
  scope := rfl

/-- What was read differs in positions only. -/
structure Parsed.Mirrors (p q : Parsed) : Prop where
  program : p.program.unplaced = q.program.unplaced
  signatures : p.signatures = q.signatures
  issues : p.issues.map Issue.unplaced = q.issues.map Issue.unplaced

/-- Token lists that differ in positions only are read as the same objects, or both end with one
fault. -/
theorem parse_mirrors {ts ts' : List Token} (h : List.Forall₂ Token.Mirrors ts ts') :
    (∃ p q, parse ts = .ok p ∧ parse ts' = .ok q ∧ p.Mirrors q) ∨
      ∃ f, parse ts = .error f ∧ parse ts' = .error f := by
  have hrun := Parser.Mirrors.unit _ _ (State.Mirrors.ofTokens h)
  unfold parse
  generalize Parser.unit.run (.ofTokens ts) = o at hrun
  generalize Parser.unit.run (.ofTokens ts') = o' at hrun
  cases hrun with
  | ok _ hst =>
    exact .inl ⟨_, _, rfl, rfl, congrArg Program.mk hst.objects, hst.signatures, hst.issues⟩
  | rejected _ hst =>
    exact .inl ⟨_, _, rfl, rfl, congrArg Program.mk hst.objects, hst.signatures, hst.issues⟩
  | faulted f => exact .inr ⟨f, rfl, rfl⟩

end Parse

/-! ## Compilations -/

section Findings

variable {is is' : List Issue} (h : is.map Issue.unplaced = is'.map Issue.unplaced)

include h

theorem Issue.map_content_eq : is.map Issue.content = is'.map Issue.content := by
  simpa [Function.comp_def] using congrArg (List.map Issue.content) h

theorem Issue.any_isFatal_eq : is.any Issue.isFatal = is'.any Issue.isFatal := by
  simpa [List.any_map, Function.comp_def] using congrArg (List.any · Issue.isFatal) h

theorem Issue.countP_isFatal_eq : is.countP Issue.isFatal = is'.countP Issue.isFatal := by
  simpa [List.countP_map, Function.comp_def] using congrArg (List.countP Issue.isFatal) h

end Findings

/-- The outcomes are the same but for the positions of the findings. -/
structure Compilation.Mirrors (c c' : Compilation) : Prop where
  assembly : c.assembly = c'.assembly
  issues : c.issues.map Issue.unplaced = c'.issues.map Issue.unplaced
  log : c.log = c'.log

/-- The steps that are logged for the functions do not depend on positions. -/
theorem Program.events_eq {p q : Program} (h : p.unplaced = q.unplaced) :
    p.functions.map (fun f => Event.emittingFunction f.name f.arity f.stackSize) =
      q.functions.map fun f => Event.emittingFunction f.name f.arity f.stackSize := by
  have hevents (r : Program) :
      r.functions.map (fun f => Event.emittingFunction f.name f.arity f.stackSize) =
        r.unplaced.functions.map fun f => Event.emittingFunction f.name f.arity f.stackSize := by
    rw [functions_unplaced, List.map_map]
    rfl
  rw [hevents p, hevents q, h]

theorem finish_mirrors {p q : Program} {is is' : List Issue} {log : List Event} {asm : Assembly}
    (hprogram : p.unplaced = q.unplaced) (hissues : is.map Issue.unplaced = is'.map Issue.unplaced)
    (hemit : p.emit = .ok asm) :
    ∃ c c', finish p is log = .ok c ∧ finish q is' log = .ok c' ∧ c.Mirrors c' := by
  have hemit' : q.emit = .ok asm := by rw [← Program.emit_eq hprogram, hemit]
  unfold finish
  rw [hemit, hemit', Program.events_eq hprogram, Program.labels_eq hprogram]
  exact ⟨_, _, rfl, rfl, rfl, hissues, rfl⟩

/-- How a text without lexical issues is compiled. -/
theorem compile_eq {source : String} {parsed : Parse.Parsed}
    (hclean : (Source.tokenize source).issues = [])
    (hparsed : Parse.parse (Source.tokenize source).tokens = .ok parsed) :
    compile source =
      let log := [.tokenized (Source.tokenize source).tokens.length,
        .parsed parsed.program.objects.length parsed.signatures.count]
      if parsed.issues.any Issue.isFatal then
        .ok ⟨none, parsed.issues, log ++ [.parsingFailed (parsed.issues.countP Issue.isFatal)]⟩
      else finish parsed.program parsed.issues log := by
  unfold compile
  simp only [hclean, hparsed, List.any_nil, Bool.false_eq_true, if_false, List.nil_append, bind,
    Except.bind]
  rfl

theorem compile_mirrors {source source' : String} (hclean : (Source.tokenize source).issues = [])
    (hclean' : (Source.tokenize source').issues = [])
    (htokens : List.Forall₂ Token.Mirrors (Source.tokenize source).tokens
      (Source.tokenize source').tokens) :
    ∃ c c', compile source = .ok c ∧ compile source' = .ok c' ∧ c.Mirrors c' := by
  obtain ⟨parsed, hparsed, hsound⟩ := Parse.parse_sound (Source.nonnegative_tokenize source)
  rcases Parse.parse_mirrors htokens with ⟨p, q, hp, hq, h⟩ | ⟨f, hf, -⟩
  · obtain ⟨asm, hasm⟩ : ∃ asm, p.program.emit = .ok asm := by
      cases hp.symm.trans hparsed
      exact Program.emit_ok hsound
    have hlength : p.program.objects.length = q.program.objects.length := by
      simpa [Program.unplaced] using congrArg (·.objects.length) h.program
    rw [compile_eq hclean hp, compile_eq hclean' hq, htokens.length_eq, h.signatures, hlength,
      Issue.any_isFatal_eq h.issues, Issue.countP_isFatal_eq h.issues]
    dsimp only
    split
    · exact ⟨_, _, rfl, rfl, rfl, h.issues, rfl⟩
    · exact finish_mirrors h.program h.issues hasm
  · cases hf.symm.trans hparsed

/-- **Positions have no influence.** Two token lists that agree, token by token, in kind, lexeme and
value are read as the same program up to the positions of its expressions, with the same findings in
the same order, and the two programs have the same code; or both lists end the reading with the same
fault, for which one of the numbers must be negative. So two source texts without lexical errors
whose tokens differ in positions only are compiled to the same assembly, with findings of the same
kinds and messages and the same log. -/
theorem compile_ignores_positions :
    (∀ ts ts' : List Token, List.Forall₂ Token.Mirrors ts ts' →
      (∃ p p', Parse.parse ts = .ok p ∧ Parse.parse ts' = .ok p' ∧
        p.program.unplaced = p'.program.unplaced ∧
        p.issues.map Issue.content = p'.issues.map Issue.content ∧
        p.program.emit = p'.program.emit) ∨
      ∃ f, Parse.parse ts = .error f ∧ Parse.parse ts' = .error f ∧ ¬Parse.Nonnegative ts) ∧
    ∀ source source' : String, (Source.tokenize source).issues = [] →
      (Source.tokenize source').issues = [] →
      List.Forall₂ Token.Mirrors (Source.tokenize source).tokens (Source.tokenize source').tokens →
      ∃ c c', compile source = .ok c ∧ compile source' = .ok c' ∧ c.assembly = c'.assembly ∧
        c.diagnostics.map Diagnostic.content = c'.diagnostics.map Diagnostic.content ∧
        c.log = c'.log := by
  constructor
  · intro ts ts' h
    rcases Parse.parse_mirrors h with ⟨p, p', hp, hp', hpp'⟩ | ⟨f, hf, hf'⟩
    · exact .inl ⟨p, p', hp, hp', hpp'.program, Issue.map_content_eq hpp'.issues,
        Program.emit_eq hpp'.program⟩
    · refine .inr ⟨f, hf, hf', fun hnonneg => ?_⟩
      obtain ⟨parsed, hparsed, -⟩ := Parse.parse_sound hnonneg
      cases hf.symm.trans hparsed
  · intro source source' hclean hclean' htokens
    obtain ⟨c, c', hc, hc', hcc'⟩ := compile_mirrors hclean hclean' htokens
    refine ⟨c, c', hc, hc', hcc'.assembly, ?_, hcc'.log⟩
    rw [Compilation.diagnostics, Compilation.diagnostics, List.map_map, List.map_map]
    exact Issue.map_content_eq hcc'.issues

/-- Everything on one line. -/
def packedSource : String := "int main()\x7breturn g(1);\x7d"

/-- The same tokens, with blanks, lines and comments between them. -/
def spreadSource : String := "int main ( )\n\x7b\n  return g(1) ; // one\n\x7d /* end */\n"

theorem spreadSource_mirrors :
    (Source.tokenize packedSource).tokens ≠ (Source.tokenize spreadSource).tokens ∧
      (∃ p p', Parse.parse (Source.tokenize packedSource).tokens = .ok p ∧
        Parse.parse (Source.tokenize spreadSource).tokens = .ok p' ∧
        p.program.unplaced = p'.program.unplaced) ∧
      ∃ c c', compile packedSource = .ok c ∧ compile spreadSource = .ok c' ∧
        c.assembly = c'.assembly ∧
        c.diagnostics.map Diagnostic.content = c'.diagnostics.map Diagnostic.content ∧
        c.log = c'.log := by
  have htokens : (Source.tokenize packedSource).tokens.map Token.unplaced =
      (Source.tokenize spreadSource).tokens.map Token.unplaced := by decide +kernel
  have hmirrors := Parse.map_unplaced_eq_iff.1 htokens
  refine ⟨by decide +kernel, ?_, ?_⟩
  · rcases compile_ignores_positions.1 _ _ hmirrors with ⟨p, p', hp, hp', hpp', -⟩ | ⟨f, -, -, hneg⟩
    · exact ⟨p, p', hp, hp', hpp'⟩
    · exact absurd (Source.nonnegative_tokenize packedSource) hneg
  · exact compile_ignores_positions.2 _ _ (by decide +kernel) (by decide +kernel) hmirrors

end WordC
