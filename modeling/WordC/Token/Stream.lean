import WordC.Token.Segment

/-!
# The tokens of a source text

A text is cut into segments, each segment gets the position of its first character, and the token
list and the lexical issues are read off the placed segments in order. The token list ends with one
end mark at the end of the text.
-/
namespace WordC

/-- A segment and the position of its first character. -/
structure Placed where
  loc : Loc
  segment : Segment
  deriving DecidableEq, Repr

namespace Placed

/-- Segments in order, the first one standing at `loc`. -/
def along (loc : Loc) : List Segment → List Placed
  | [] => []
  | s :: ss => ⟨loc, s⟩ :: Placed.along (loc.advance s.text) ss

theorem map_segment_along (ss : List Segment) : ∀ loc,
    (Placed.along loc ss).map Placed.segment = ss := by
  induction ss with
  | nil => intro loc; rfl
  | cons s ss ih => intro loc; exact congrArg (s :: ·) (ih _)

def token? (p : Placed) : Option Token := p.segment.token? p.loc

def issue? (p : Placed) : Option Issue := p.segment.problem?.map (Issue.lexical p.loc)

end Placed

/-- What reading the characters of a source text yields. -/
structure Lexed where
  tokens : List Token
  issues : List Issue
  deriving DecidableEq, Repr

namespace Source

/-- The placed segments of a text. -/
def segments (source : String) : List Placed :=
  Placed.along .start (Segment.split source.toList)

/-- The tokens of a text, the end mark included, and its lexical issues. -/
def tokenize (source : String) : Lexed where
  tokens :=
    (segments source).filterMap Placed.token? ++ [.endMark (Loc.start.advance source.toList)]
  issues := (segments source).filterMap Placed.issue?

end Source

end WordC
