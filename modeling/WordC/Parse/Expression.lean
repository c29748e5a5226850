import WordC.Parse.Operator
import WordC.Parse.State

/-!
# Reading expressions

One reader for each form of the grammar, names and types being resolved on the way:

* `assign`: `chain ("=" assign)?`
* `chain level`: `operand (operator operand)*` with the operators of one level
* `unary`: `("+" | "-" | "&" | "*") unary`, or `subscripted`
* `subscripted`: `primary ("[" assign "]")*`
* `primary`: `"(" assign ")"`, `"sizeof" unary`, a call, a variable or a number
* `arguments`: `assign ("," assign)* ")"`

The readers call each other with a smaller and smaller budget. Each round through all forms reads at
least one token, so the budget that `expression` computes from the tokens left is never used up.
-/
namespace WordC.Parse.Parser

/-- Checks a call against the signature of its callee, or leaves it for the end of the text. -/
def checkCall (callee : String) (args : List Argument) (loc : Loc) : Parser Unit := do
  match (← get).signatures.find? callee with
  | some signature =>
    record (Argument.mismatches callee 1 args signature.params)
    match Argument.countProblem? callee args signature.params with
    | some problem => reject loc problem
    | none => return ()
  | none => modify fun s => { s with pending := s.pending ++ [⟨callee, args, loc⟩] }

/-- The call of `callee`, which stands at `loc`. -/
def callOf (callee : String) (args : List Expr) (loc : Loc) : Parser Expr := do
  if maxArgs < args.length then
    reject loc (.tooManyForCall callee)
  else
    checkCall callee (args.map fun arg => ⟨arg.ty, arg.loc⟩) loc
    return .mkCall callee args loc

/-- The variable that an identifier denotes. -/
def variableOf (token : Token) : Parser Expr := do
  match (← get).var? token.lexeme with
  | some v => return .mkVar v token.loc
  | none => reject token.loc (.undeclared token.lexeme)

mutual

def assign : Nat → Parser Expr
  | 0 => fault .exhausted
  | budget + 1 => do
    let target ← chain budget .equality
    let loc ← here
    if ← accept "=" then
      if target.isLvalue then
        let value ← assign budget
        ofRejection (Expr.mkAssign target value loc)
      else
        reject target.loc .notLvalue
    else
      return target

def chain : Nat → Level → Parser Expr
  | 0, _ => fault .exhausted
  | budget + 1, level => do
    let first ← operand budget level
    chainFrom budget level first

/-- An operand of the operators of a level. -/
def operand : Nat → Level → Parser Expr
  | 0, _ => fault .exhausted
  | budget + 1, level =>
    match level.tighter? with
    | some tighter => chain budget tighter
    | none => unary budget

/-- The operators of a level that follow `lhs`, with their right operands. -/
def chainFrom : Nat → Level → Expr → Parser Expr
  | 0, _, _ => fault .exhausted
  | budget + 1, level, lhs => do
    let token ← current
    match level.operator? token with
    | some op =>
      advance
      let rhs ← operand budget level
      let node ← ofStop (op.build lhs rhs token.loc)
      chainFrom budget level node
    | none => return lhs

def unary : Nat → Parser Expr
  | 0 => fault .exhausted
  | budget + 1 => do
    let loc ← here
    if ← accept "+" then
      unary budget
    else if ← accept "-" then
      let operand ← unary budget
      ofRejection (Expr.mkUnary .neg operand loc)
    else if ← accept "&" then
      let operand ← unary budget
      if operand.isLvalue then
        ofRejection (Expr.mkUnary .addr operand loc)
      else
        reject operand.loc .notLvalue
    else if ← accept "*" then
      let operand ← unary budget
      ofRejection (Expr.mkUnary .deref operand loc)
    else
      subscripted budget

def subscripted : Nat → Parser Expr
  | 0 => fault .exhausted
  | budget + 1 => do
    let first ← primary budget
    subscripts budget first

/-- The subscripts that follow `base`: each is the place at the sum of base and index. -/
def subscripts : Nat → Expr → Parser Expr
  | 0, _ => fault .exhausted
  | budget + 1, base => do
    let loc ← here
    if ← accept "[" then
      let index ← assign budget
      expect "]"
      let address ← ofStop (Expr.plus base index loc)
      let element ← ofRejection (Expr.mkUnary .deref address loc)
      subscripts budget element
    else
      return base

def primary : Nat → Parser Expr
  | 0 => fault .exhausted
  | budget + 1 => do
    let token ← current
    if ← accept "(" then
      let inner ← assign budget
      expect ")"
      return inner
    else if ← accept "sizeof" then
      let operand ← unary budget
      let size ← ofFault operand.ty.size
      return .mkNum size token.loc
    else if token.kind = .ident then
      advance
      if ← accept "(" then
        let args ← if ← accept ")" then pure [] else arguments budget
        callOf token.lexeme args token.loc
      else
        variableOf token
    else if token.kind = .num then
      let value ← number
      return .mkNum value token.loc
    else
      reject token.loc (.expectedExpression token.describe)

def arguments : Nat → Parser (List Expr)
  | 0 => fault .exhausted
  | budget + 1 => do
    let arg ← assign budget
    if ← accept ")" then
      return [arg]
    else
      expect ","
      let more ← arguments budget
      return arg :: more

end

/-- A budget that no expression in so many tokens uses up. -/
def expressionBudget (tokens : Nat) : Nat := 16 * (tokens + 1)

/-- Reads an expression. -/
def expression : Parser Expr := do
  let s ← get
  assign (expressionBudget s.rest.length)

end WordC.Parse.Parser
