import WordC.Loc

/-!
# Tokens

A token is a piece of source text with its kind, its position and, for a number, its value. A list
of tokens ends at its first end mark.
-/
namespace WordC

namespace Token

inductive Kind where
  | punctuator
  | keyword
  | ident
  | num
  | eof
  deriving DecidableEq, Repr

end Token

structure Token where
  kind : Token.Kind
  lexeme : String
  value : Option Int
  loc : Loc
  deriving DecidableEq, Repr

namespace Token

/-- The mark behind the last token. -/
def endMark (loc : Loc) : Token := ⟨.eof, "", none, loc⟩

/-- A punctuator or keyword spelled exactly `text`. -/
def is (t : Token) (text : String) : Bool :=
  (t.kind == .punctuator || t.kind == .keyword) && t.lexeme == text

/-- How a message names the token. -/
def describe (t : Token) : String :=
  if t.kind = .eof then "EOF" else t.lexeme

end Token

end WordC
