import WordC.Proofs.Segmentation
import WordC.Proofs.Surface

/-!
# Texts put together

A blank ends the segment in front of it, whatever comes behind. So a text may be read line by line, as
long as no block comment is open at the end of a line, and tokens may be written out with blanks between
them and read again.

* `Segment.EndedBy`: the characters in front of which a segment always ends.
* `Segment.Whole.before`: a whole segment stays whole in front of such a character.
* `Source.beforeEnd`, `Source.diagnostics`: the tokens in front of the end mark, and what is reported.
* `Source.tokenize_lines`: two texts with a line feed between them are read one behind the other, the
  second some rows further down.
* `Source.tokenize_printed`: tokens that are written out with single spaces are read as they were.
-/
namespace WordC

namespace Segment

/-! ## Where segments end -/

/-- The segment ends in front of the character, if not before. -/
def EndedBy (c : Char) : Segment → Prop
  | lineComment _ => c = '\n'
  | openComment _ => False
  | _ => Blank c

theorem Blank.not_digit {c : Char} (h : Blank c) : ¬Digit c := by
  have hblanks : [' ', '\t', '\n', '\x0c', '\r'].all (fun c => !c.isDigit) := by decide
  simpa [← isDigit_iff] using List.all_eq_true.1 hblanks c h

theorem Blank.not_letter {c : Char} (h : Blank c) : ¬Letter c := by
  have hblanks : [' ', '\t', '\n', '\x0c', '\r'].all (fun c => !isWordStart c) := by decide
  simpa [← isWordStart_iff] using List.all_eq_true.1 hblanks c h

/-- No punctuator and no comment mark has a blank in it. -/
theorem Blank.notMem_marks {c : Char} (h : Blank c) (run : List Char) :
    String.ofList (run ++ [c]) ∉ punctuators ++ commentMarks := by
  intro hmem
  have hmarks : (punctuators ++ commentMarks).all (fun text => text.toList.all fun d => !isBlank d) := by
    decide
  have hc := List.all_eq_true.1 (List.all_eq_true.1 hmarks _ hmem) c (by simp)
  rw [isBlank_iff.2 h] at hc
  cases hc

/-- What holds of the next character and of `c` holds of the next character when `c` is put behind. -/
theorem head?_append_cons {P : Char → Prop} {behind more : List Char} {c : Char}
    (h : ∀ d ∈ behind.head?, P d) (hc : P c) : ∀ d ∈ (behind ++ c :: more).head?, P d := by
  cases behind with
  | nil => simpa using hc
  | cons d behind => simpa using h

/-- A segment that is whole where it stands stays whole in front of a character that ends it. -/
theorem Whole.before {s : Segment} {behind : List Char} (h : s.Whole behind) {c : Char}
    (hc : s.EndedBy c) (more : List Char) : s.Whole (behind ++ c :: more) := by
  cases s with
  | blank d => exact h
  | lineComment body => exact ⟨h.1, head?_append_cons h.2 hc⟩
  | blockComment body => exact h
  | openComment body => exact hc.elim
  | digits run => exact ⟨h.1, h.2.1, head?_append_cons h.2.2 hc.not_digit⟩
  | word run =>
    have hplain : ¬(Letter c ∨ Digit c) := not_or.2 ⟨hc.not_letter, hc.not_digit⟩
    exact ⟨h.1, head?_append_cons h.2 hplain⟩
  | punctuator run => exact ⟨h.1, head?_append_cons h.2 (hc.notMem_marks run)⟩
  | stray d =>
    obtain ⟨hblank, hdigit, hletter, hsingle, hpair⟩ := h
    have hplain : String.ofList [d, c] ∉ punctuators := fun hmem =>
      hc.notMem_marks [d] (List.mem_append_left _ hmem)
    exact ⟨hblank, hdigit, hletter, hsingle, head?_append_cons hpair hplain⟩

/-- A segment that is whole where it stands is whole at the end of a text. -/
theorem Whole.atEnd {s : Segment} {behind : List Char} (h : s.Whole behind) : s.Whole [] := by
  cases s with
  | blank c => exact h
  | lineComment body => exact ⟨h.1, nofun⟩
  | blockComment body => exact h
  | openComment body => exact ⟨h.1, rfl⟩
  | digits run => exact ⟨h.1, h.2.1, nofun⟩
  | word run => exact ⟨h.1, nofun⟩
  | punctuator run => exact ⟨h.1, nofun⟩
  | stray c => exact ⟨h.1, h.2.1, h.2.2.1, h.2.2.2.1, nofun⟩

/-! ## Covering what is put together -/

theorem endedBy_lineFeed {s : Segment} (h : ∀ body, s ≠ openComment body) : s.EndedBy '\n' := by
  cases s with
  | lineComment body => rfl
  | openComment body => exact absurd rfl (h body)
  | blank c | blockComment body | digits run | word run | punctuator run | stray c =>
    exact isBlank_iff.1 rfl

/-- Two texts with a line feed between them are covered one behind the other. -/
theorem Covers.line {ss ss' : List Segment} {cs cs' : List Char} (h : Covers ss cs)
    (hclosed : ∀ body, openComment body ∉ ss) (h' : Covers ss' cs') :
    Covers (ss ++ blank '\n' :: ss') (cs ++ '\n' :: cs') := by
  induction h with
  | nil => exact .cons (s := blank '\n') (isBlank_iff.1 rfl) h'
  | @cons s ss behind hs _ ih =>
    have hend : s.EndedBy '\n' := endedBy_lineFeed fun body hbody =>
      hclosed body (hbody ▸ List.mem_cons_self)
    have hrest := ih fun body hbody => hclosed body (List.mem_cons_of_mem s hbody)
    rw [List.cons_append, List.append_assoc]
    exact .cons (hs.before hend cs') hrest

/-- Segments that end in front of a space are covered with single spaces between them. -/
theorem covers_spaced {ss : List Segment} (h : ∀ s ∈ ss, s.Whole [] ∧ s.EndedBy ' ') :
    Covers (ss.intersperse (blank ' ')) ([' '].intercalate (ss.map text)) := by
  induction ss with
  | nil => exact .nil
  | cons s ss ih =>
    obtain ⟨⟨hs, hend⟩, hss⟩ := List.forall_mem_cons.1 h
    cases ss with
    | nil =>
      have hcovers := Covers.cons hs .nil
      rw [List.append_nil] at hcovers
      rw [List.intersperse_singleton, List.map_singleton, List.intercalate_singleton]
      exact hcovers
    | cons t ss =>
      have hspace := Covers.cons (s := blank ' ') (isBlank_iff.1 rfl) (ih hss)
      rw [List.intersperse_cons_cons, List.map_cons, List.map_cons, List.intercalate_cons_cons,
        List.append_assoc]
      exact .cons (hs.before hend _) hspace

theorem filterMap_spaced {α : Type} {f : Segment → Option α} (hf : f (blank ' ') = none)
    (ss : List Segment) : (ss.intersperse (blank ' ')).filterMap f = ss.filterMap f := by
  induction ss with
  | nil => rfl
  | cons s ss ih =>
    cases ss with
    | nil => rfl
    | cons t ss =>
      rw [List.intersperse_cons_cons, List.filterMap_cons, List.filterMap_cons, hf, ih,
        ← List.filterMap_cons]

/-! ## Segments that are tokens -/

theorem spells_of_token? {s : Segment} {loc : Loc} {t : Token} (h : s.token? loc = some t) :
    s.Spells t ∧ s.problem? = none := by
  rcases s.comes_to loc with ⟨u, hu, hproblem, hs, -⟩ | ⟨p, hnone, -⟩ | ⟨hnone, -⟩
  · rw [h] at hu
    cases hu
    exact ⟨hs, hproblem⟩
  · rw [h] at hnone
    cases hnone
  · rw [h] at hnone
    cases hnone

theorem Spells.kind_ne_eof {s : Segment} {t : Token} (h : s.Spells t) : t.kind ≠ .eof := by
  cases h <;> exact nofun

theorem Spells.lexeme_eq {s : Segment} {t : Token} (h : s.Spells t) :
    t.lexeme = String.ofList s.text := by
  cases h <;> rfl

theorem Spells.endedBy {s : Segment} {t : Token} (h : s.Spells t) {c : Char} (hc : Blank c) :
    s.EndedBy c := by
  cases h <;> exact hc

/-- Where a segment stands does not matter for what it spells. -/
theorem unplaced_token? (s : Segment) (loc : Loc) :
    (s.token? loc).map Token.unplaced = s.token? .nowhere := by
  cases s with
  | digits run =>
    by_cases hfits : (value run : Int) ≤ Word.greatest
    · simp [token?, hfits, Token.unplaced]
    · simp [token?, hfits]
  | blank c | lineComment body | blockComment body | openComment body | word run | punctuator run
  | stray c => rfl

/-- The segment is a token. -/
def isToken (s : Segment) : Bool := (s.token? .nowhere).isSome

theorem lexemes_eq (ss : List Segment) :
    ((ss.filterMap (token? .nowhere)).map Token.lexeme).map String.toList =
      (ss.filter isToken).map text := by
  induction ss with
  | nil => rfl
  | cons s ss ih =>
    cases ht : s.token? .nowhere with
    | none =>
      have hs : isToken s = false := by simp [isToken, ht]
      rw [List.filterMap_cons_none ht, List.filter_cons_of_neg (by simp [hs]), ih]
    | some t =>
      have hs : isToken s = true := by simp [isToken, ht]
      rw [List.filterMap_cons_some ht, List.filter_cons_of_pos hs, List.map_cons, List.map_cons, ih,
        List.map_cons, (spells_of_token? ht).1.lexeme_eq, String.toList_ofList]

/-- The segments of a text that are tokens can be spaced out. -/
theorem covers_tokens (cs : List Char) :
    Covers (((split cs).filter isToken).intersperse (blank ' '))
      ([' '].intercalate (((split cs).filter isToken).map text)) := by
  refine covers_spaced fun s hs => ?_
  obtain ⟨hmem, htoken⟩ := List.mem_filter.1 hs
  obtain ⟨t, ht⟩ := Option.isSome_iff_exists.1 htoken
  obtain ⟨front, back, hsplit⟩ := List.append_of_mem hmem
  have hwhole := (hsplit ▸ covers_split cs).whole
  exact ⟨hwhole.atEnd, (spells_of_token? ht).1.endedBy (isBlank_iff.1 rfl)⟩

end Segment

/-! ## Moving down -/

/-- The same position so many rows further down. -/
def Loc.down (rows : Nat) (l : Loc) : Loc := ⟨l.row + rows, l.col⟩

def Token.down (rows : Nat) (t : Token) : Token := { t with loc := t.loc.down rows }

def Diagnostic.down (rows : Nat) (d : Diagnostic) : Diagnostic := { d with loc := d.loc.down rows }

theorem Loc.advance_down (rows : Nat) (l : Loc) (cs : List Char) :
    (l.down rows).advance cs = (l.advance cs).down rows := by
  induction cs generalizing l with
  | nil => rfl
  | cons c cs ih =>
    have hafter : (l.down rows).after c = (l.after c).down rows := by
      unfold Loc.after Loc.down
      split
      · simp only [Loc.mk.injEq, and_true]
        omega
      · rfl
    rw [advance_cons, advance_cons, hafter, ih]

/-- Behind a line feed a new text begins, as many rows further down as there are line feeds. -/
theorem Loc.behind_lineFeed (cs : List Char) :
    Loc.behind (cs ++ ['\n']) = Loc.start.down (1 + cs.count '\n') := by
  rw [behind_concat]
  simp only [Loc.after, Loc.behind, Loc.down, Loc.start, if_true, Loc.mk.injEq, and_true]
  omega

theorem Segment.token?_down (s : Segment) (rows : Nat) (loc : Loc) :
    s.token? (loc.down rows) = (s.token? loc).map (Token.down rows) := by
  cases s with
  | digits run =>
    by_cases hfits : (value run : Int) ≤ Word.greatest
    · simp [token?, hfits, Token.down]
    · simp [token?, hfits]
  | blank c | lineComment body | blockComment body | openComment body | word run | punctuator run
  | stray c => rfl

namespace Placed

def down (rows : Nat) (p : Placed) : Placed := { p with loc := p.loc.down rows }

theorem along_append (loc : Loc) (ss ss' : List Segment) :
    Placed.along loc (ss ++ ss') =
      Placed.along loc ss ++ Placed.along (loc.advance (ss.flatMap Segment.text)) ss' := by
  induction ss generalizing loc with
  | nil => rfl
  | cons s ss ih =>
    rw [List.cons_append, Placed.along, Placed.along, ih, List.flatMap_cons, Loc.advance_append,
      List.cons_append]

theorem along_down (rows : Nat) (loc : Loc) (ss : List Segment) :
    Placed.along (loc.down rows) ss = (Placed.along loc ss).map (Placed.down rows) := by
  induction ss generalizing loc with
  | nil => rfl
  | cons s ss ih => rw [Placed.along, Placed.along, Loc.advance_down, ih, List.map_cons]; rfl

/-- What is reported about a segment. -/
def diagnostic? (p : Placed) : Option Diagnostic := p.issue?.map Issue.toDiagnostic

theorem token?_down (rows : Nat) (p : Placed) :
    (p.down rows).token? = p.token?.map (Token.down rows) :=
  p.segment.token?_down rows p.loc

theorem diagnostic?_down (rows : Nat) (p : Placed) :
    (p.down rows).diagnostic? = p.diagnostic?.map (Diagnostic.down rows) := by
  unfold diagnostic? issue? down
  cases p.segment.problem? with
  | none => rfl
  | some problem => rfl

theorem unplaced_along (loc : Loc) (ss : List Segment) :
    ((Placed.along loc ss).filterMap Placed.token?).map Token.unplaced =
      ss.filterMap (Segment.token? .nowhere) := by
  induction ss generalizing loc with
  | nil => rfl
  | cons s ss ih =>
    rw [Placed.along, List.filterMap_cons, List.filterMap_cons, ← s.unplaced_token? loc, ← ih]
    simp only [Placed.token?]
    cases s.token? loc with
    | none => rfl
    | some t => rfl

end Placed

/-! ## Source texts -/

namespace Source

open Segment

/-- The tokens of a text in front of the end mark. -/
def beforeEnd (source : String) : List Token :=
  (tokenize source).tokens.takeWhile (·.kind != .eof)

/-- What is reported about the characters of a text. -/
def diagnostics (source : String) : List Diagnostic := (tokenize source).issues.map Issue.toDiagnostic

/-- Tokens written out with single spaces between them. -/
def printed (tokens : List Token) : String := " ".intercalate (tokens.map Token.lexeme)

theorem beforeEnd_eq (source : String) :
    beforeEnd source = (segments source).filterMap Placed.token? := by
  have hproper : ∀ t ∈ (segments source).filterMap Placed.token?, (t.kind != .eof) = true := by
    intro t ht
    obtain ⟨p, -, hp⟩ := List.mem_filterMap.1 ht
    exact bne_iff_ne.2 (spells_of_token? hp).1.kind_ne_eof
  unfold beforeEnd tokenize
  rw [List.takeWhile_append_of_pos hproper]
  exact List.append_nil _

theorem tokenize_tokens (source : String) :
    (tokenize source).tokens = beforeEnd source ++ [.endMark (Loc.behind source.toList)] := by
  rw [beforeEnd_eq, ← Loc.advance_start]
  rfl

theorem diagnostics_eq (source : String) :
    diagnostics source = (segments source).filterMap Placed.diagnostic? := by
  unfold diagnostics tokenize
  exact List.map_filterMap

theorem unplaced_beforeEnd (source : String) :
    (beforeEnd source).map Token.unplaced =
      (split source.toList).filterMap (Segment.token? .nowhere) := by
  rw [beforeEnd_eq, segments, Placed.unplaced_along]

/-- Nothing is reported if nothing is the matter with any segment. -/
theorem diagnostics_eq_nil {source : String}
    (h : (split source.toList).filterMap Segment.problem? = []) : diagnostics source = [] := by
  rw [diagnostics_eq, List.filterMap_eq_nil_iff]
  intro p hp
  have hsegment : p.segment ∈ split source.toList := by
    rw [← Placed.map_segment_along (split source.toList) .start]
    exact List.mem_map_of_mem hp
  unfold Placed.diagnostic? Placed.issue?
  rw [List.filterMap_eq_nil_iff.1 h p.segment hsegment]
  rfl

/-- A comment that is open at the end is reported. -/
theorem closed_of_diagnostics {source : String}
    (h : ∀ d ∈ diagnostics source, d.message ≠ "unterminated block comment") (body : List Char) :
    openComment body ∉ split source.toList := by
  intro hmem
  rw [← Placed.map_segment_along (split source.toList) .start] at hmem
  obtain ⟨p, hp, hopen⟩ := List.mem_map.1 hmem
  refine h ⟨.lexical, p.loc, "unterminated block comment"⟩ ?_ rfl
  rw [diagnostics_eq]
  refine List.mem_filterMap.2 ⟨p, hp, ?_⟩
  unfold Placed.diagnostic? Placed.issue?
  rw [hopen]
  rfl

/-- The second text is cut as it is when it stands alone, so many rows further down. -/
theorem segments_lines {a : String} (b : String)
    (hclosed : ∀ body, openComment body ∉ split a.toList) :
    segments (a ++ "\n" ++ b) =
      segments a ++ ⟨Loc.behind a.toList, blank '\n'⟩ ::
        (segments b).map (Placed.down (1 + a.toList.count '\n')) := by
  have htext : (a ++ "\n" ++ b).toList = a.toList ++ '\n' :: b.toList := by simp
  have hcut := covers_iff.1 ((covers_split a.toList).line hclosed (covers_split b.toList))
  have hnewline : (Loc.behind a.toList).advance (blank '\n').text =
      Loc.start.down (1 + a.toList.count '\n') := by
    rw [← Loc.behind_lineFeed, Loc.behind_append]
    rfl
  unfold segments
  rw [htext, ← hcut, Placed.along_append, (covers_split a.toList).text_eq, Loc.advance_start,
    Placed.along, hnewline, Placed.along_down]

/-- So whatever segments come to, if it moves down with them, comes from the first text and then from
the second. -/
theorem filterMap_lines {α : Type} {f : Placed → Option α} {g : α → α} {a : String} (b : String)
    (hclosed : ∀ body, openComment body ∉ split a.toList)
    (hblank : ∀ loc, f ⟨loc, blank '\n'⟩ = none)
    (hdown : ∀ p : Placed, f (p.down (1 + a.toList.count '\n')) = (f p).map g) :
    (segments (a ++ "\n" ++ b)).filterMap f =
      (segments a).filterMap f ++ ((segments b).filterMap f).map g := by
  rw [segments_lines b hclosed, List.filterMap_append, List.filterMap_cons_none (hblank _),
    List.filterMap_map, List.map_filterMap]
  congr 1
  exact List.filterMap_congr fun p _ => hdown p

/-- **Texts are read line by line.** If no block comment is open at the end of a text, then with a line
feed and another text behind it, it is read as it is alone, and so is the other text: its tokens, the
end mark with them, and what is reported about it are the same, so many rows further down as there are
line feeds in front of it. -/
theorem tokenize_lines {a : String} (b : String)
    (h : ∀ d ∈ diagnostics a, d.message ≠ "unterminated block comment") :
    (tokenize (a ++ "\n" ++ b)).tokens =
      beforeEnd a ++ (tokenize b).tokens.map (Token.down (1 + a.toList.count '\n')) ∧
    diagnostics (a ++ "\n" ++ b) =
      diagnostics a ++ (diagnostics b).map (Diagnostic.down (1 + a.toList.count '\n')) := by
  have hclosed := closed_of_diagnostics h
  constructor
  · have hend : Loc.behind (a ++ "\n" ++ b).toList =
        (Loc.behind b.toList).down (1 + a.toList.count '\n') := by
      have htext : (a ++ "\n" ++ b).toList = a.toList ++ ['\n'] ++ b.toList := by simp
      rw [htext, Loc.behind_append, Loc.behind_lineFeed, Loc.advance_down, Loc.advance_start]
    have htokens : beforeEnd (a ++ "\n" ++ b) =
        beforeEnd a ++ (beforeEnd b).map (Token.down (1 + a.toList.count '\n')) := by
      rw [beforeEnd_eq, beforeEnd_eq, beforeEnd_eq]
      exact filterMap_lines b hclosed (fun _ => rfl) (Placed.token?_down _)
    rw [tokenize_tokens, tokenize_tokens, htokens, hend, List.map_append, List.append_assoc]
    rfl
  · rw [diagnostics_eq, diagnostics_eq, diagnostics_eq]
    exact filterMap_lines b hclosed (fun _ => rfl) (Placed.diagnostic?_down _)

/-- A text of two rows with a comment over both, a stray character, and a less-than at its end. -/
def wrapped : String := "x = a1 /* one\n\ttwo */ @ 007 <"

/-- An equals sign at its beginning, and a comment that is not closed. -/
def unclosed : String := "= 3 /* the end"

/-- The less-than and the equals sign stay apart, and the comment is reported in the third row. -/
theorem wrapped_unclosed_lines :
    (∀ d ∈ diagnostics wrapped, d.message ≠ "unterminated block comment") ∧
    (tokenize (wrapped ++ "\n" ++ unclosed)).tokens =
      beforeEnd wrapped ++ (tokenize unclosed).tokens.map (Token.down 2) ∧
    diagnostics (wrapped ++ "\n" ++ unclosed) =
      [⟨.lexical, ⟨2, 9⟩, "Unexpected character '@'"⟩] ++
        [⟨.lexical, ⟨3, 5⟩, "unterminated block comment"⟩] := by
  have hclosed : ∀ d ∈ diagnostics wrapped, d.message ≠ "unterminated block comment" := by
    decide +kernel
  have hrows : 1 + wrapped.toList.count '\n' = 2 := by decide
  obtain ⟨htokens, hdiagnostics⟩ := tokenize_lines unclosed hclosed
  rw [hrows] at htokens hdiagnostics
  refine ⟨hclosed, htokens, hdiagnostics.trans ?_⟩
  decide +kernel

/-- The lexemes of the tokens of a text are the texts of the segments that are tokens. -/
theorem printed_beforeEnd (source : String) :
    (printed (beforeEnd source)).toList =
      [' '].intercalate (((split source.toList).filter isToken).map text) := by
  have hlexemes : (beforeEnd source).map Token.lexeme =
      ((split source.toList).filterMap (Segment.token? .nowhere)).map Token.lexeme := by
    rw [← unplaced_beforeEnd, List.map_map]
    rfl
  rw [printed, String.toList_intercalate, hlexemes, lexemes_eq]
  rfl

/-- **Tokens that are written out are read again.** The lexemes of the tokens of any text, with single
spaces between them, are read as the same tokens, up to their positions, and nothing is reported. -/
theorem tokenize_printed (source : String) :
    (beforeEnd (printed (beforeEnd source))).map Token.unplaced =
      (beforeEnd source).map Token.unplaced ∧
    diagnostics (printed (beforeEnd source)) = [] := by
  have hcut : split (printed (beforeEnd source)).toList =
      ((split source.toList).filter isToken).intersperse (blank ' ') := by
    rw [printed_beforeEnd]
    exact (covers_iff.1 (covers_tokens source.toList)).symm
  constructor
  · rw [unplaced_beforeEnd, unplaced_beforeEnd, hcut, filterMap_spaced rfl, List.filterMap_filter]
    refine List.filterMap_congr fun s _ => ?_
    cases ht : s.token? .nowhere with
    | none => simp
    | some t => simp [isToken, ht]
  · refine diagnostics_eq_nil ?_
    rw [hcut, filterMap_spaced rfl, List.filterMap_eq_nil_iff]
    intro s hs
    obtain ⟨t, ht⟩ := Option.isSome_iff_exists.1 (List.mem_filter.1 hs).2
    exact (spells_of_token? ht).2

end Source

end WordC
