import WordC.Parse.Declarator
import WordC.Parse.Expression
import WordC.Parse.Recovery

/-!
# Reading statements

* `declaration`: `"int" (declarator ("=" expression)? ("," declarator ("=" expression)?)*)? ";"`
* `statement`: `return`, `if`, `for`, `while`, a block, or an expression with its semicolon
* `items`: the declarations and statements of a block and its closing brace

An item that is rejected is recorded and skipped, and the block goes on behind it.
-/
namespace WordC.Parse.Parser

/-- The comma in front of every declarator but the first. -/
def separator (first : Bool) : Parser Unit :=
  if first then pure () else expect ","

/-- The assignment that initializes a new local, if there is one. -/
def initializer (v : Local) (loc : Loc) : Parser (List Stmt) := do
  let eqLoc ← here
  if ← accept "=" then
    let value ← expression
    let node ← ofRejection (Expr.mkAssign (.mkVar (.frame v) loc) value eqLoc)
    return [.eval (some node)]
  else
    return []

/-- The declarators of a declaration over `base` up to the semicolon. -/
def declarators : Nat → Ty → Bool → Parser (List Stmt)
  | 0, _, _ => fault .exhausted
  | budget + 1, base, first => do
    if ← accept ";" then
      return []
    else
      separator first
      let d ← declarator base
      let v ← declareLocal d.name d.ty
      let init ← initializer v d.name.loc
      let more ← declarators budget base false
      return init ++ more

/-- Reads a declaration of locals; what is left of it is its initializing assignments. -/
def declaration : Parser Stmt := do
  let base ← typeName
  let s ← get
  let inits ← declarators (s.rest.length + 1) base true
  return .block inits

/-- Reads an expression, which may be missing, and its semicolon. -/
def expressionStatement : Parser Stmt := do
  if ← accept ";" then
    return .eval none
  else
    let e ← expression
    expect ";"
    return .eval (some e)

/-- Reads an expression unless the token `text` comes next. -/
def expressionUnless (text : String) : Parser (Option Expr) := do
  if ← sees text then
    return none
  else
    let e ← expression
    return some e

mutual

def statement : Nat → Parser Stmt
  | 0 => fault .exhausted
  | budget + 1 => do
    if ← accept "return" then
      let value ← expressionUnless ";"
      expect ";"
      return .ret value
    else if ← accept "if" then
      expect "("
      let cond ← expression
      expect ")"
      let onTrue ← statement budget
      if ← accept "else" then
        let onFalse ← statement budget
        return .ite cond onTrue (some onFalse)
      else
        return .ite cond onTrue none
    else if ← accept "for" then
      expect "("
      let init ← if ← sees "int" then declaration else expressionStatement
      let cond ← expressionUnless ";"
      expect ";"
      let step ← expressionUnless ")"
      expect ")"
      let body ← statement budget
      return .loop (some init) cond step body
    else if ← accept "while" then
      expect "("
      let cond ← expression
      expect ")"
      let body ← statement budget
      return .loop none (some cond) none body
    else if ← accept "\x7b" then
      let stmts ← items budget
      return .block stmts
    else
      expressionStatement

def items : Nat → Parser (List Stmt)
  | 0 => fault .exhausted
  | budget + 1 => do
    if ← accept "\x7d" then
      return []
    else if ← atEnd then
      reject (← here) (.expectedToken "\x7d" "EOF")
    else
      let start := (← get).rest
      let item ← attempt (if startsObject (← current) then declaration else statement budget)
      match item with
      | .ok stmt =>
        let more ← items budget
        return stmt :: more
      | .error r =>
        report r
        modify fun s => { s with rest := resume startsItem start s.rest }
        items budget

end

/-- A budget that no block in so many tokens uses up. -/
def blockBudget (tokens : Nat) : Nat := 4 * (tokens + 1)

/-- Reads the items of a block whose opening brace is already read. -/
def block : Parser Stmt := do
  let s ← get
  let stmts ← items (blockBudget s.rest.length)
  return .block stmts

end WordC.Parse.Parser
