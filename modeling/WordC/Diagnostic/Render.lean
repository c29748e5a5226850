import WordC.Diagnostic

/-!
# Diagnostics as text

A diagnostic is shown as its header, the source line it points into, indented by four, and a caret
below the column. On a terminal the position is bold and the label and the caret are tinted.

* `Source.lines`: a text cut at its line feeds.
* `Diagnostic.render`: one diagnostic over its source.
* `Diagnostics.render`: all of them, one after the other.
-/
namespace WordC

/-! ## Source lines -/

namespace Source

/-- The lines of a text. A line feed ends a line and belongs to none, one carriage return right
before it is dropped, and no empty line follows the last line feed. -/
def linesOf : List Char → List (List Char)
  | [] => []
  | '\n' :: cs => [] :: linesOf cs
  | '\r' :: '\n' :: cs => [] :: linesOf cs
  | c :: cs =>
    match linesOf cs with
    | [] => [[c]]
    | line :: more => (c :: line) :: more

def lines (source : String) : List String := (linesOf source.toList).map String.ofList

/-- The line of the given row, empty where the text has none. -/
def line (source : String) (row : Nat) : String := (lines source)[row - 1]?.getD ""

end Source

/-! ## Colors -/

namespace Color

def bold : String := "\x1b[1m"
def red : String := "\x1b[31m"
def yellow : String := "\x1b[33m"
def reset : String := "\x1b[0m"

end Color

namespace Diagnostic

/-- Errors are red and warnings yellow. -/
def Kind.tint (kind : Kind) : String := if kind.isFatal then Color.red else Color.yellow

/-- The blanks in front of the caret: the line's indent and the columns before the position. -/
def padding (d : Diagnostic) : String := "".pushn ' ' (d.loc.col - 1 + 4)

/-- Header, source line and caret. -/
def render (d : Diagnostic) (source : String) (color : Bool) : String :=
  let excerpt := "    " ++ Source.line source d.loc.row ++ "\n" ++ d.padding
  if color then
    Color.bold ++ d.loc.text ++ ": " ++ d.kind.tint ++ d.kind.label ++ ":" ++ Color.reset ++ " " ++
      d.message ++ "\n" ++ excerpt ++ Color.bold ++ d.kind.tint ++ "^" ++ Color.reset ++ "\n"
  else
    d.header ++ "\n" ++ excerpt ++ "^\n"

end Diagnostic

namespace Diagnostics

def render (ds : List Diagnostic) (source : String) (color : Bool) : String :=
  String.join (ds.map fun d => d.render source color)

end Diagnostics

end WordC
