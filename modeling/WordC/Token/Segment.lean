import WordC.Token
import WordC.Problem

/-!
# Lexical segments

Every source text is a sequence of segments: blanks, comments, runs of digits, words, punctuators,
and single characters that belong to nothing. A segment keeps its text, so nothing of the source is
lost, and runs are taken as long as they go.

* `Segment.first`: the first segment of a text and what follows it.
* `Segment.split`: a whole text cut into segments.
* `Segment.token?`, `Segment.problem?`: what a segment contributes to the token list and to the
  diagnostics; blanks and closed comments contribute nothing.
-/
namespace WordC

/-- A piece of source text. The markers of a comment are not part of its body. -/
inductive Segment where
  | blank (c : Char)
  | lineComment (body : List Char)
  | blockComment (body : List Char)
  /-- A block comment that never ends. -/
  | openComment (body : List Char)
  | digits (run : List Char)
  | word (run : List Char)
  | punctuator (run : List Char)
  | stray (c : Char)
  deriving DecidableEq, Repr

namespace Segment

/-! ## Character classes

The language is written in ASCII; any other character can only stand in a comment. -/

def isBlank (c : Char) : Bool :=
  c == ' ' || c == '\t' || c == '\n' || c == '\x0c' || c == '\r'

def isWordStart (c : Char) : Bool := c.isAlpha || c == '_'

def isWordPart (c : Char) : Bool := c.isAlphanum || c == '_'

def keywords : List String := ["int", "if", "else", "for", "while", "return", "sizeof"]

/-- Punctuators of two characters, which go before their first character alone. -/
def pairs : List (Char × Char) := [('=', '='), ('!', '='), ('<', '='), ('>', '=')]

/-- Punctuators of one character. -/
def singles : List Char :=
  ['+', '-', '*', '/', '(', ')', '<', '>', ';', '=', '\x7b', '\x7d', '&', ',', '[', ']']

/-! ## Cutting a text -/

/-- The characters a segment covers. -/
def text : Segment → List Char
  | blank c => [c]
  | lineComment body => '/' :: '/' :: body
  | blockComment body => '/' :: '*' :: (body ++ ['*', '/'])
  | openComment body => '/' :: '*' :: body
  | digits run => run
  | word run => run
  | punctuator run => run
  | stray c => [c]

/-- The body of a block comment, up to the first closing marker, and the text behind the marker. -/
def closeComment? : List Char → Option (List Char × List Char)
  | [] => none
  | '*' :: '/' :: rest => some ([], rest)
  | c :: cs => (closeComment? cs).map fun (body, rest) => (c :: body, rest)

/-- The punctuator or stray character at the front of `c :: cs`. -/
def symbol (c : Char) : List Char → Segment × List Char
  | d :: rest =>
    if (c, d) ∈ pairs then (punctuator [c, d], rest)
    else if c ∈ singles then (punctuator [c], d :: rest)
    else (stray c, d :: rest)
  | [] => if c ∈ singles then (punctuator [c], []) else (stray c, [])

/-- The first segment of `c :: cs` and the text behind it. -/
def first (c : Char) (cs : List Char) : Segment × List Char :=
  if isBlank c then (blank c, cs)
  else match c, cs with
    | '/', '/' :: rest => (lineComment (rest.takeWhile (· != '\n')), rest.dropWhile (· != '\n'))
    | '/', '*' :: rest =>
      match closeComment? rest with
      | some (body, behind) => (blockComment body, behind)
      | none => (openComment rest, [])
    | _, _ =>
      if c.isDigit then (digits (c :: cs.takeWhile Char.isDigit), cs.dropWhile Char.isDigit)
      else if isWordStart c then (word (c :: cs.takeWhile isWordPart), cs.dropWhile isWordPart)
      else symbol c cs

theorem closeComment?_length {cs body rest : List Char} (h : closeComment? cs = some (body, rest)) :
    rest.length < cs.length := by
  fun_induction closeComment? cs generalizing body with
  | case1 => simp at h
  | case2 rest' =>
    simp only [Option.some.injEq, Prod.mk.injEq] at h
    rw [← h.2]
    simp only [List.length_cons]
    omega
  | case3 c cs _ ih =>
    obtain ⟨⟨b, r⟩, hr, hp⟩ := Option.map_eq_some_iff.1 h
    obtain ⟨_, rfl⟩ := Prod.mk.inj hp
    have := ih hr
    simp only [List.length_cons]
    omega

theorem symbol_length (c : Char) (cs : List Char) : (symbol c cs).2.length ≤ cs.length := by
  unfold symbol
  repeat' split
  all_goals simp

/-- A segment is never empty: cutting it off leaves a shorter text. -/
theorem first_length (c : Char) (cs : List Char) : (first c cs).2.length ≤ cs.length := by
  unfold first
  split
  · exact Nat.le_refl _
  · split
    · exact Nat.le_succ_of_le (List.dropWhile_suffix _).length_le
    · split
      · rename_i h
        have := closeComment?_length h
        simp only [List.length_cons]
        omega
      · exact Nat.zero_le _
    · split
      · exact (List.dropWhile_suffix _).length_le
      · split
        · exact (List.dropWhile_suffix _).length_le
        · exact symbol_length c cs

/-- The segments of a text, in order. -/
def split : List Char → List Segment
  | [] => []
  | c :: cs => (first c cs).1 :: split (first c cs).2
termination_by cs => cs.length
decreasing_by
  have := first_length c cs
  simp only [List.length_cons]
  omega

/-! ## What a segment contributes -/

/-- The value of a run of digits. -/
def value (run : List Char) : Nat := Nat.ofDigitChars 10 run 0

/-- The token a segment makes when it stands at `loc`. -/
def token? (loc : Loc) : Segment → Option Token
  | digits run =>
    if (value run : Int) ≤ Word.greatest then
      some ⟨.num, String.ofList run, some (value run), loc⟩
    else none
  | word run =>
    let lexeme := String.ofList run
    some ⟨if lexeme ∈ keywords then .keyword else .ident, lexeme, none, loc⟩
  | punctuator run => some ⟨.punctuator, String.ofList run, none, loc⟩
  | _ => none

/-- What is wrong with a segment. -/
def problem? : Segment → Option LexicalProblem
  | digits run => if (value run : Int) ≤ Word.greatest then none else some .numberTooLarge
  | openComment _ => some .unterminatedComment
  | stray c => some (.strayCharacter c)
  | _ => none

end Segment

end WordC
