/-!
# Positions in a source text

Rows and columns start at 1; a column counts characters. Only a line feed starts a new row.
-/
namespace WordC

/-- A position in a source text. -/
structure Loc where
  row : Nat
  col : Nat
  deriving DecidableEq, Repr, Inhabited

namespace Loc

/-- Where a text begins. -/
def start : Loc := ⟨1, 1⟩

/-- The position of something that is in no text. -/
def nowhere : Loc := ⟨0, 0⟩

/-- The position behind the character `c` that stands at `l`. -/
def after (l : Loc) (c : Char) : Loc :=
  if c = '\n' then ⟨l.row + 1, 1⟩ else ⟨l.row, l.col + 1⟩

/-- The position behind the characters `cs` that start at `l`. -/
def advance (l : Loc) (cs : List Char) : Loc := cs.foldl after l

/-- `row:col`. -/
def text (l : Loc) : String := toString l.row ++ ":" ++ toString l.col

@[simp] theorem advance_nil (l : Loc) : l.advance [] = l := rfl

@[simp] theorem advance_cons (l : Loc) (c : Char) (cs : List Char) :
    l.advance (c :: cs) = (l.after c).advance cs := rfl

theorem advance_append (l : Loc) (cs ds : List Char) :
    l.advance (cs ++ ds) = (l.advance cs).advance ds := by
  simp [advance, List.foldl_append]

end Loc

end WordC
