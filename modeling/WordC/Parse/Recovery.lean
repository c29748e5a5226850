import WordC.Token

/-!
# Where reading resumes after a rejection

A rejected construct started at some tokens and left others unread. The functions here say, on token
lists alone, where reading goes on: behind the end of a statement, in front of a token that can start
one, or behind the body of a function.

* `consumed`: what was read between two points.
* `resume`: the next boundary of statements or declarations; at least one token is dropped.
* `skipFunction`: behind the function that was being read.
-/
namespace WordC.Parse

/-- The tokens of `start` that are read when `rest` is left. -/
def consumed (start rest : List Token) : List Token := start.take (start.length - rest.length)

/-- The token ends a statement or a declaration. -/
def ends (t : Token) : Bool := t.is ";" || t.is "\x7d"

/-- The token starts a declaration of the outermost level. -/
def startsObject (t : Token) : Bool := t.is "int"

/-- Reading a block can go on in front of this token. -/
def startsItem (t : Token) : Bool :=
  ["if", "for", "while", "return", "int", "\x7b"].any t.is || t.is "\x7d"

/-- The tokens from the first boundary on, when `last` is the token read last. -/
def seek (starts : Token → Bool) (last : Option Token) : List Token → List Token
  | [] => []
  | t :: ts => if last.any ends || starts t then t :: ts else seek starts (some t) ts

/-- Where reading resumes when a construct that started at `start` was rejected with `rest` left. -/
def resume (starts : Token → Bool) (start rest : List Token) : List Token :=
  if rest.length = start.length then seek starts rest.head? rest.tail
  else seek starts (consumed start rest).getLast? rest

/-! ## Behind a function -/

/-- The tokens behind the brace that closes a body of which `depth` braces are open, once `opened`;
before any brace, a semicolon ends the search as well. -/
def skipBody (opened : Bool) (depth : Int) : List Token → List Token
  | [] => []
  | t :: ts =>
    if t.is "\x7b" then skipBody true (depth + 1) ts
    else if t.is "\x7d" then
      if opened && depth - 1 ≤ 0 then ts else skipBody opened (depth - 1) ts
    else if !opened && t.is ";" then ts
    else skipBody opened depth ts

/-- Where reading resumes when a function that started at `start` was rejected with `rest` left. -/
def skipFunction (start rest : List Token) : List Token :=
  let read := consumed start rest
  let opening := read.countP (·.is "\x7b")
  let closing := read.countP (·.is "\x7d")
  skipBody (0 < opening) (opening - closing) rest

end WordC.Parse
