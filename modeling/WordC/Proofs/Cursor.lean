import WordC.Proofs.Recursion
import WordC.Proofs.Rounds

/-!
# Positions in the token list

A state holds the tokens that are left in front of the first end mark. Seen from the whole list, it
stands at a position in it. Readers go forward only, so no position is beyond the first end mark or in
front of the one where reading started, and what was read is the stretch of the list between the two.

* `endPosition`: where the first end mark stands; without one, the length of the list.
* `State.StandsAt`: a state and its position.
* `Parser.StaysInRange`: a reader that comes from each position to one in range. Every reader that goes
  forward is one (`Parser.Forward.staysInRange`).
* `reading_stays_in_range`: the readers of a text and its parts, and the positions between rounds.
-/
namespace WordC.Parse

open Relation (ReflTransGen)

/-- How many tokens stand in front of the first end mark. -/
def endPosition (tokens : List Token) : Nat := tokens.findIdx (·.kind == .eof)

theorem endPosition_le (tokens : List Token) : endPosition tokens ≤ tokens.length :=
  List.findIdx_le_length

/-! ## States -/

/-- The state stands in front of what is at position `pos` of the tokens: a token, or the first end
mark. -/
structure State.StandsAt (s : State) (tokens : List Token) (pos : Nat) : Prop where
  inRange : pos ≤ endPosition tokens
  rest : s.rest = tokens.extract pos (endPosition tokens)

namespace State.StandsAt

variable {s s' : State} {tokens : List Token} {start pos : Nat}

theorem ofTokens (tokens : List Token) : (State.ofTokens tokens).StandsAt tokens 0 := by
  refine ⟨Nat.zero_le _, ?_⟩
  have hmark : (fun t : Token => !(t.kind != .eof)) = fun t => t.kind == .eof := by
    funext t
    simp [bne]
  show tokens.takeWhile (·.kind != .eof) = tokens.take (endPosition tokens)
  rw [List.takeWhile_eq_take_findIdx_not, hmark, endPosition]

theorem length_rest (h : s.StandsAt tokens pos) : s.rest.length = endPosition tokens - pos := by
  have hend := endPosition_le tokens
  rw [h.rest, List.length_take, List.length_drop]
  omega

/-- Nothing is left just in front of the first end mark. -/
theorem rest_eq_nil_iff (h : s.StandsAt tokens pos) : s.rest = [] ↔ pos = endPosition tokens := by
  have hlength := h.length_rest
  have hrange := h.inRange
  rw [← List.length_eq_zero_iff]
  omega

/-- In front of the first end mark, the next token is the one at the position. -/
theorem current (h : s.StandsAt tokens pos) (hpos : pos < endPosition tokens) :
    tokens[pos]? = some s.current := by
  have hhead : s.rest[0]? = tokens[pos]? := by
    rw [h.rest, List.getElem?_take_of_lt (by omega), List.getElem?_drop, Nat.add_zero]
  have hleft : s.rest ≠ [] := fun hnil => by
    have := h.rest_eq_nil_iff.1 hnil
    omega
  obtain ⟨t, ts, hrest⟩ := List.exists_cons_of_ne_nil hleft
  rw [← hhead, State.current, hrest]
  rfl

/-- Where the last of the tokens are left, the state stands further on, and what was read is the stretch
in between. -/
theorem of_suffix (h : s.StandsAt tokens start) (hsuffix : s'.rest <:+ s.rest) :
    ∃ pos, start ≤ pos ∧ s'.StandsAt tokens pos ∧
      consumed s.rest s'.rest = tokens.extract start pos := by
  have hlength := h.length_rest
  have hle := hsuffix.length_le
  have hrange := h.inRange
  obtain ⟨count, hcount⟩ : ∃ n, n = s.rest.length - s'.rest.length := ⟨_, rfl⟩
  refine ⟨start + count, Nat.le_add_right _ _, ⟨by omega, ?_⟩, ?_⟩
  · calc s'.rest
      _ = s.rest.drop count := by rw [hcount, ← List.suffix_iff_eq_drop.1 hsuffix]
      _ = (tokens.extract start (endPosition tokens)).drop count := by rw [h.rest]
      _ = (tokens.drop (start + count)).take (endPosition tokens - start - count) := by
        rw [List.extract_eq_take_drop, List.drop_take, List.drop_drop]
      _ = tokens.extract (start + count) (endPosition tokens) := by
        rw [List.extract_eq_take_drop, Nat.sub_sub]
  · calc consumed s.rest s'.rest
      _ = s.rest.take count := by rw [consumed, hcount]
      _ = (tokens.extract start (endPosition tokens)).take count := by rw [h.rest]
      _ = (tokens.drop start).take count := by
        rw [List.extract_eq_take_drop, List.take_take, Nat.min_eq_left (by omega)]
      _ = tokens.extract start (start + count) := by
        rw [List.extract_eq_take_drop, Nat.add_sub_cancel_left]

end State.StandsAt

/-! ## Readers -/

/-- If the outcome is a state, it stands at a position that is in range, and what was read since `s` is
the stretch of the tokens from `start` to there. -/
def Outcome.InRange {α : Type} (tokens : List Token) (start : Nat) (s : State) : Outcome α → Prop
  | .ok _ s' | .rejected _ s' =>
    ∃ pos, start ≤ pos ∧ s'.StandsAt tokens pos ∧ consumed s.rest s'.rest = tokens.extract start pos
  | .faulted _ => True

/-- From every position the reader comes to one in range, whether it has a result or is rejected. -/
def Parser.StaysInRange {α : Type} (p : Parser α) : Prop :=
  ∀ tokens start s, s.StandsAt tokens start → (p.run s).InRange tokens start s

theorem Parser.Forward.staysInRange {α : Type} {p : Parser α} (hp : p.Forward) : p.StaysInRange := by
  intro tokens start s hs
  have hmoves := hp s
  cases hrun : p.run s with
  | ok a s' =>
    rw [hrun] at hmoves
    exact hs.of_suffix hmoves.1
  | rejected r s' =>
    rw [hrun] at hmoves
    exact hs.of_suffix hmoves
  | faulted f => trivial

/-! ## Rounds -/

/-- The next round starts behind the tokens of this one. -/
theorem Round.standsAt {s s' : State} {tokens : List Token} {start : Nat} (h : Round s s')
    (hs : s.StandsAt tokens start) : ∃ pos, start < pos ∧ s'.StandsAt tokens pos := by
  have hrange := allForward.object.staysInRange tokens start s hs
  have hshorter := (object_moves h.1).1
  rw [h.2] at hrange hshorter
  obtain ⟨pos, hstart, hs', -⟩ := hrange
  have hlength := hs.length_rest
  have hlength' := hs'.length_rest
  have hless := hshorter.2 rfl
  exact ⟨pos, by omega, hs'⟩

theorem Visits.standsAt {s : State} {tokens : List Token} (h : Visits tokens s) :
    ∃ pos, s.StandsAt tokens pos := by
  induction h with
  | refl => exact ⟨0, .ofTokens tokens⟩
  | tail _ hround ih =>
    obtain ⟨start, hs⟩ := ih
    obtain ⟨pos, -, hs'⟩ := hround.standsAt hs
    exact ⟨pos, hs'⟩

/-- **Reading stays in range.** Reading starts at the first token. A reader that starts at some position
ends at one that is not in front of it and not beyond the first end mark, and what it has read is the
stretch of the tokens between the two; so it is for each routine, for what is read with a look back at
where it began, and for whole texts. Between rounds the state stands at a position, too, each round moves
it on, and if reading comes to its end, that is at the first end mark. As long as that is not reached,
the next token is the one at the position. -/
theorem reading_stays_in_range :
    ((∀ r : Routine, r.parser.StaysInRange) ∧ Parser.function.StaysInRange ∧
      Parser.globals.StaysInRange ∧ Parser.object.StaysInRange ∧ Parser.unit.StaysInRange) ∧
    ∀ tokens, (State.ofTokens tokens).StandsAt tokens 0 ∧
      (∀ s, Visits tokens s → ∃ pos, s.StandsAt tokens pos ∧
        (pos < endPosition tokens → tokens[pos]? = some s.current) ∧
        ∀ s', Round s s' → ∃ pos', pos < pos' ∧ s'.StandsAt tokens pos') ∧
      ∀ parsed, parse tokens = .ok parsed →
        ∃ last, Visits tokens last ∧ parsed = last.parsed ∧ last.StandsAt tokens (endPosition tokens) := by
  refine ⟨⟨fun r => (allForward.routine r).staysInRange, allForward.function.staysInRange,
    allForward.globals.staysInRange, allForward.object.staysInRange, allForward.unit.staysInRange⟩,
    fun tokens => ⟨.ofTokens tokens, fun s hs => ?_, fun parsed hparsed => ?_⟩⟩
  · obtain ⟨pos, hpos⟩ := hs.standsAt
    exact ⟨pos, hpos, hpos.current, fun s' hround => hround.standsAt hpos⟩
  · obtain ⟨budget, last, hlast, rfl⟩ := parse_last hparsed
    obtain ⟨hrounds, hend⟩ := objects_rounds budget _ hlast
    obtain ⟨pos, hpos⟩ := Visits.standsAt hrounds
    exact ⟨last, hrounds, rfl, hpos.rest_eq_nil_iff.1 hend ▸ hpos⟩

end WordC.Parse
