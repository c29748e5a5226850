import WordC.Proofs.ReadObjects

/-!
# The recursive readers

Readers of expressions, of lengths and of statements call themselves and each other. A budget makes
each of them end; here they are taken apart from their budgets.

* `Routine`: the recursive readers, `Routine.reader`: with a budget, `Routine.parser`: with one that
  depends on the tokens that are left.
* `Routine.body`: one round of a routine, with the calls left open. A reader is its body, with the
  readers of the next smaller budget for the calls (`reader_succ`).
* `Descends`: what the measure of a call is compared by. Tokens are only dropped, and where none is,
  the rank of the routine gets lower.
* `Outcome.Moves`: a reader goes past tokens, never back, and faults only on numbers out of range.
-/
namespace WordC.Parse

/-- The readers that call themselves or each other. -/
inductive Routine where
  | assign
  | chain (level : Level)
  | operand (level : Level)
  | chainFrom (level : Level) (lhs : Expr)
  | unary
  | subscripted
  | subscripts (base : Expr)
  | primary
  | arguments
  | lengths (ty : Ty)
  | statement
  | items

namespace Routine

/-- What a routine reads. -/
@[reducible] def Result : Routine → Type
  | arguments => List Expr
  | lengths _ => Ty
  | statement => Stmt
  | items => List Stmt
  | _ => Expr

/-- The reader of a routine with a budget. -/
def reader : (r : Routine) → Nat → Parser r.Result
  | assign => Parser.assign
  | chain level => fun b => Parser.chain b level
  | operand level => fun b => Parser.operand b level
  | chainFrom level lhs => fun b => Parser.chainFrom b level lhs
  | unary => Parser.unary
  | subscripted => Parser.subscripted
  | subscripts base => fun b => Parser.subscripts b base
  | primary => Parser.primary
  | arguments => Parser.arguments
  | lengths ty => fun b => Parser.lengths b ty
  | statement => Parser.statement
  | items => Parser.items

open WordC.Parse.Parser in
/-- One round of a routine, in which the calls of routines are left to `call`. -/
def body (call : (r : Routine) → Parser r.Result) : (r : Routine) → Parser r.Result
  | assign => do
    let target ← call (.chain .equality)
    let loc ← here
    if ← accept "=" then
      if target.isLvalue then
        let value ← call .assign
        ofRejection (Expr.mkAssign target value loc)
      else
        reject target.loc .notLvalue
    else
      return target
  | chain level => do
    let first ← call (.operand level)
    call (.chainFrom level first)
  | operand level =>
    match level.tighter? with
    | some tighter => call (.chain tighter)
    | none => call .unary
  | chainFrom level lhs => do
    let token ← current
    match level.operator? token with
    | some op =>
      advance
      let rhs ← call (.operand level)
      let node ← ofStop (op.build lhs rhs token.loc)
      call (.chainFrom level node)
    | none => return lhs
  | unary => do
    let loc ← here
    if ← accept "+" then
      call .unary
    else if ← accept "-" then
      let operand ← call .unary
      ofRejection (Expr.mkUnary .neg operand loc)
    else if ← accept "&" then
      let operand ← call .unary
      if operand.isLvalue then
        ofRejection (Expr.mkUnary .addr operand loc)
      else
        reject operand.loc .notLvalue
    else if ← accept "*" then
      let operand ← call .unary
      ofRejection (Expr.mkUnary .deref operand loc)
    else
      call .subscripted
  | subscripted => do
    let first ← call .primary
    call (.subscripts first)
  | subscripts base => do
    let loc ← here
    if ← accept "[" then
      let index ← call .assign
      expect "]"
      let address ← ofStop (Expr.plus base index loc)
      let element ← ofRejection (Expr.mkUnary .deref address loc)
      call (.subscripts element)
    else
      return base
  | primary => do
    let token ← current
    if ← accept "(" then
      let inner ← call .assign
      expect ")"
      return inner
    else if ← accept "sizeof" then
      let operand ← call .unary
      let size ← ofFault operand.ty.size
      return .mkNum size token.loc
    else if token.kind = .ident then
      advance
      if ← accept "(" then
        let args ← if ← accept ")" then pure [] else call .arguments
        callOf token.lexeme args token.loc
      else
        variableOf token
    else if token.kind = .num then
      let value ← number
      return .mkNum value token.loc
    else
      reject token.loc (.expectedExpression token.describe)
  | arguments => do
    let arg ← call .assign
    if ← accept ")" then
      return [arg]
    else
      expect ","
      let more ← call .arguments
      return arg :: more
  | lengths ty => do
    if ← accept "[" then
      let loc ← here
      let len ← number
      expect "]"
      let element ← call (.lengths ty)
      arrayOf element len loc
    else
      return ty
  | statement => do
    if ← accept "return" then
      let value ← expressionUnless ";"
      expect ";"
      return .ret value
    else if ← accept "if" then
      expect "("
      let cond ← expression
      expect ")"
      let onTrue ← call .statement
      if ← accept "else" then
        let onFalse ← call .statement
        return .ite cond onTrue (some onFalse)
      else
        return .ite cond onTrue none
    else if ← accept "for" then
      expect "("
      let init ← if ← sees "int" then declaration else expressionStatement
      let cond ← expressionUnless ";"
      expect ";"
      let step ← expressionUnless ")"
      expect ")"
      let body ← call .statement
      return .loop (some init) cond step body
    else if ← accept "while" then
      expect "("
      let cond ← expression
      expect ")"
      let body ← call .statement
      return .loop none (some cond) none body
    else if ← accept "\x7b" then
      let stmts ← call .items
      return .block stmts
    else
      expressionStatement
  | items => do
    if ← accept "\x7d" then
      return []
    else if ← atEnd then
      reject (← here) (.expectedToken "\x7d" "EOF")
    else
      let start := (← get).rest
      let item ← attempt (if startsObject (← current) then declaration else call .statement)
      match item with
      | .ok stmt =>
        let more ← call .items
        return stmt :: more
      | .error r =>
        report r
        modify fun s => { s with rest := resume startsItem start s.rest }
        call .items

/-- With every call, one is taken from the budget. -/
theorem reader_succ (r : Routine) (b : Nat) : r.reader (b + 1) = r.body fun r => r.reader b := by
  cases r <;> rfl

/-! ## Measures -/

/-- Only routines of one group can call each other in a circle: a statement reads its expressions and
declarators as a whole, with readers that come before it and never call it. -/
inductive Group where
  | expression
  | declarator
  | statement
  deriving DecidableEq, Repr

def group : Routine → Group
  | lengths _ => .declarator
  | statement | items => .statement
  | _ => .expression

/-- Where no token is read, a routine calls only routines of a lower rank. -/
def rank : Routine → Nat
  | arguments => 14
  | assign => 13
  | chain level => level.rank + 1
  | operand level => level.rank
  | unary => 4
  | subscripted => 3
  | primary => 2
  | chainFrom _ _ => 1
  | subscripts _ => 1
  | lengths _ => 1
  | items => 2
  | statement => 1

/-- What a token counts for in a budget. -/
def Group.weight : Group → Nat
  | expression => 16
  | declarator => 1
  | statement => 4

/-- A budget that suffices with so many tokens left. -/
def need (r : Routine) (tokens : Nat) : Nat := r.group.weight * tokens + r.rank

/-- A result takes at least one token. -/
def takes : Routine → Bool
  | chainFrom _ _ | subscripts _ | lengths _ | items => false
  | _ => true

/-- The routine as it is run: with a budget for the tokens that are left. -/
def parser (r : Routine) : Parser r.Result where
  run s := (r.reader (r.need s.rest.length)).run s

end Routine

/-! ## Going forward -/

/-- The outcome of a reader that starts at `s`, goes past tokens only, and faults only because a number
is out of range. -/
def Outcome.Moves {α : Type} (s : State) (strictly : Bool) : Outcome α → Prop
  | .ok _ s' => s'.rest <:+ s.rest ∧ (strictly → s'.rest.length < s.rest.length)
  | .rejected _ s' => s'.rest <:+ s.rest
  | .faulted f => f = .overflow

theorem Word.check_fault {n : Int} {f : Fault} (h : Word.check n = .error f) : f = .overflow := by
  unfold Word.check at h
  split at h <;> cases h
  rfl

theorem Ty.size_fault {ty : Ty} {f : Fault} (h : ty.size = .error f) : f = .overflow := by
  induction ty with
  | int => cases h
  | ptr base ih => cases h
  | func ret ih => cases h
  | array base len ih =>
    unfold Ty.size at h
    cases hsize : base.size with
    | error f' => rw [hsize] at h; cases h; exact ih hsize
    | ok size => rw [hsize] at h; exact Word.check_fault h

theorem Ty.stride_fault {ty : Ty} {f : Fault} (h : ty.stride = .error f) : f = .overflow := by
  unfold Ty.stride at h
  split at h
  · exact Ty.size_fault h
  · cases h

/-- Nothing is asked of what is read. -/
def anything : Discipline where
  Inv _ := True
  Tree _ _ := True
  Shape _ := True
  Value _ := True
  Name _ := True
  Allowed f := f = .overflow
  value _ _ _ _ := trivial
  name _ _ _ := trivial
  read _ _ := trivial
  record _ _ := trivial
  wait _ _ _ := trivial
  grows _ _ := trivial
  num _ := trivial
  sizeof _ _ := trivial
  sizeof_fault _ h := Ty.size_fault h
  var _ _ := trivial
  unary _ _ _ := trivial
  binary _ _ _ _ := trivial
  binary_fault _ _ _ h := (Operator.build_fault h).elim Ty.stride_fault Ty.stride_fault
  assign _ _ _ _ := trivial
  call _ _ _ := trivial
  int := trivial
  ptr _ := trivial
  decay _ := trivial
  array _ _ _ _ := trivial
  size_fault _ h := Ty.size_fault h
  enter _ := trivial
  declareLocal _ _ _ _ _ _ _ _ := trivial
  offset_fault _ _ _ _ _ h := Word.check_fault h
  declare _ _ _ _ _ _ := trivial
  define _ _ _ _ _ := trivial
  declareGlobal _ _ _ _ _ := trivial
  defineFunction _ _ _ _ _ _ _ _ _ _ _ := trivial

section

variable {α : Type} {s : State} {o : Outcome α} {post : α → State → Prop}

theorem Discipline.Yields.moves (h : anything.Yields s post o) : o.Moves s false := by
  cases o with
  | ok a s' => exact ⟨h.2.1.rest, fun hfalse => by cases hfalse⟩
  | rejected r s' => exact h.2.rest
  | faulted f => exact h

theorem Discipline.Yields.movesOn (h : anything.Yields s post o)
    (hpost : ∀ a s', post a s' → s'.rest.length < s.rest.length) (strictly : Bool) :
    o.Moves s strictly := by
  cases o with
  | ok a s' => exact ⟨h.2.1.rest, fun _ => hpost a s' h.2.2⟩
  | rejected r s' => exact h.2.rest
  | faulted f => exact h

end

/-! Readers that call no routine. -/

section

variable {s : State}

open Discipline

theorem moves_advance {ts : List Token} (h : s.rest = s.current :: ts) :
    (Parser.advance.run s).Moves s true :=
  (Yields.advance (D := anything) trivial h).movesOn (fun _ _ h => h) true

theorem moves_expect (text : String) : ((Parser.expect text).run s).Moves s true :=
  (Yields.expect (D := anything) text trivial).movesOn (fun _ _ h => h) true

theorem moves_number : (Parser.number.run s).Moves s true :=
  (Yields.number (D := anything) trivial).movesOn (fun _ _ h => h.2) true

theorem moves_ofRejection {α : Type} (r : Except Rejection α) :
    ((Parser.ofRejection r).run s).Moves s false := by
  have hyields : anything.Yields s (fun _ _ => True) ((Parser.ofRejection r).run s) :=
    Yields.ofRejection trivial fun _ _ => trivial
  exact hyields.moves

theorem moves_build (op : Operator) {lhs rhs : Expr} {loc : Loc} :
    ((Parser.ofStop (op.build lhs rhs loc)).run s).Moves s false :=
  (build_yields (D := anything) op trivial trivial trivial).moves

theorem moves_expression : (Parser.expression.run s).Moves s true :=
  (Yields.expression (D := anything) trivial).movesOn (fun _ _ h => h.2) true

theorem moves_expressionUnless (text : String) :
    ((Parser.expressionUnless text).run s).Moves s false :=
  (Yields.expressionUnless (D := anything) text trivial).moves

theorem moves_expressionStatement : (Parser.expressionStatement.run s).Moves s true :=
  (Yields.expressionStatement (D := anything) trivial).movesOn (fun _ _ h => h.2) true

theorem moves_declaration : (Parser.declaration.run s).Moves s true :=
  (Yields.declaration (D := anything) trivial).movesOn (fun _ _ h => h.2) true

end

/-- With a budget that suffices, a routine goes forward. -/
theorem Routine.reader_moves (r : Routine) {b : Nat} {s : State} (h : r.need s.rest.length ≤ b) :
    ((r.reader b).run s).Moves s r.takes := by
  have hexpr := anything.expressionSpecs b
  have hstmt := anything.statementSpecs b
  cases r with
  | assign => exact (hexpr.assign s trivial h).movesOn (fun _ _ hp => hp.2) _
  | chain level => exact (hexpr.chain s level trivial h).movesOn (fun _ _ hp => hp.2) _
  | operand level => exact (hexpr.operand s level trivial h).movesOn (fun _ _ hp => hp.2) _
  | chainFrom level lhs => exact (hexpr.chainFrom s level lhs trivial trivial h).moves
  | unary => exact (hexpr.unary s trivial h).movesOn (fun _ _ hp => hp.2) _
  | subscripted => exact (hexpr.subscripted s trivial h).movesOn (fun _ _ hp => hp.2) _
  | subscripts base => exact (hexpr.subscripts s base trivial trivial h).moves
  | primary => exact (hexpr.primary s trivial h).movesOn (fun _ _ hp => hp.2) _
  | arguments => exact (hexpr.arguments s trivial h).movesOn (fun _ _ hp => hp.2) _
  | lengths ty =>
    have hb : s.rest.length + 1 ≤ b := by simpa only [need, group, rank, Group.weight, Nat.one_mul] using h
    exact (Discipline.lengths_yields (D := anything) trivial b s trivial hb).moves
  | statement => exact (hstmt.statement s trivial h).movesOn (fun _ _ hp => hp.2) _
  | items => exact (hstmt.items s trivial h).moves

/-! ## Calls go down -/

/-- From a routine that is run at a state to another one: no token comes back, and if none is read, the
rank gets lower. -/
structure Descends (x y : Routine × State) : Prop where
  group : y.1.group = x.1.group
  rest : y.2.rest <:+ x.2.rest
  lower : y.2.rest.length < x.2.rest.length ∨ y.1.rank < x.1.rank

namespace Descends

variable {x y z : Routine × State} {r r' : Routine} {s s' : State}

theorem ranked (hrest : s'.rest <:+ s.rest) (hrank : r'.rank < r.rank)
    (hgroup : r'.group = r.group := by rfl) : Descends (r, s) (r', s') :=
  ⟨hgroup, hrest, .inr hrank⟩

theorem shorter (hrest : s'.rest <:+ s.rest) (hlen : s'.rest.length < s.rest.length)
    (hgroup : r'.group = r.group := by rfl) : Descends (r, s) (r', s') :=
  ⟨hgroup, hrest, .inl hlen⟩

theorem trans (h : Descends x y) (h' : Descends y z) : Descends x z where
  group := h'.group.trans h.group
  rest := h'.rest.trans h.rest
  lower := by
    have hle := h.rest.length_le
    have hle' := h'.rest.length_le
    rcases h.lower with hlt | hlt <;> rcases h'.lower with hlt' | hlt' <;> omega

end Descends

/-- Within a group, ranks differ by less than what a token counts for. -/
theorem Routine.rank_bounds (r : Routine) : 0 < r.rank ∧ r.rank ≤ r.group.weight := by
  cases r with
  | chain level => cases level <;> decide
  | operand level => cases level <;> decide
  | assign | chainFrom | unary | subscripted | subscripts | primary | arguments | lengths | statement
  | items => exact ⟨by simp only [rank]; decide, by simp only [rank, group]; decide⟩

theorem Routine.need_lt {r r' : Routine} {s s' : State} (h : Descends (r, s) (r', s')) :
    r'.need s'.rest.length < r.need s.rest.length := by
  have hgroup : r'.group = r.group := h.group
  have hle : s'.rest.length ≤ s.rest.length := h.rest.length_le
  have hlower : s'.rest.length < s.rest.length ∨ r'.rank < r.rank := h.lower
  obtain ⟨-, hrank'⟩ := r'.rank_bounds
  obtain ⟨hrank, -⟩ := r.rank_bounds
  rw [hgroup] at hrank'
  unfold Routine.need
  rw [hgroup]
  rcases hlower with hlt | hlt
  · have hmul := Nat.mul_le_mul_left r.group.weight (Nat.succ_le_of_lt hlt)
    rw [Nat.mul_succ] at hmul
    omega
  · have hmul := Nat.mul_le_mul_left r.group.weight hle
    omega

end WordC.Parse
