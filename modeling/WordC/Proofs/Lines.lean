import WordC.Diagnostic.Render
import WordC.Proofs.Segmentation

/-!
# Lines and carets

Positions are counted while a text is cut into segments, and a diagnostic is shown by cutting the same
text into lines. The two must agree on where a character stands, although lines lose their line feeds
and the carriage returns in front of them.

* `Loc.Before`: the order of positions; a longer text ends at a later position.
* `Source.Lexes.token_at`, `Source.Lexes.issue_at`: tokens and issues stand where their segments begin.
* `Source.Lexes.increasing`: tokens stand one behind the other.
* `Source.linesOf_at`: a character that is not part of a line end is found in the line of its row, at
  its column.
* `Diagnostic.PointsAt`, `Diagnostic.pointsAt`: the caret is shown below that character.
-/
namespace WordC

/-! ## The order of positions -/

/-- Rows first, then columns. -/
def Loc.Before (l m : Loc) : Prop := l.row < m.row ∨ l.row = m.row ∧ l.col < m.col

namespace Loc

theorem Before.trans {l m n : Loc} (h : l.Before m) (h' : m.Before n) : l.Before n := by
  unfold Before at *
  omega

theorem before_after (l : Loc) (c : Char) : l.Before (l.after c) := by
  unfold after
  split
  · exact .inl (Nat.lt_succ_self _)
  · exact .inr ⟨rfl, Nat.lt_succ_self _⟩

theorem before_advance (l : Loc) {cs : List Char} (h : cs ≠ []) : l.Before (l.advance cs) := by
  induction cs generalizing l with
  | nil => exact absurd rfl h
  | cons c cs ih =>
    rw [advance_cons]
    by_cases hcs : cs = []
    · rw [hcs, advance_nil]
      exact before_after l c
    · exact (before_after l c).trans (ih _ hcs)

/-- Behind a longer text the position is later. -/
theorem behind_before (before : List Char) {cs : List Char} (h : cs ≠ []) :
    (Loc.behind before).Before (Loc.behind (before ++ cs)) := by
  rw [behind_append]
  exact before_advance _ h

end Loc

/-! ## Where tokens and issues stand -/

theorem Segment.Whole.text_ne_nil {s : Segment} {behind : List Char} (h : s.Whole behind) :
    s.text ≠ [] := by
  obtain ⟨c, cs, htext, -⟩ := Segment.first_of_whole h
  rw [htext]
  exact List.cons_ne_nil _ _

theorem Segment.Covers.text_ne_nil {ss : List Segment} {cs : List Char} (h : Segment.Covers ss cs) :
    ∀ s ∈ ss, s.text ≠ [] := by
  induction h with
  | nil => exact List.forall_mem_nil _
  | cons hs _ ih => exact List.forall_mem_cons.2 ⟨hs.text_ne_nil, ih⟩

namespace Source.Lexes

open Segment

variable {before : List Char} {ss : List Segment} {ts : List Token} {issues : List Issue}

theorem token_at (h : Lexes before ss ts issues) {t : Token} (ht : t ∈ ts) :
    ∃ front s back, ss = front ++ s :: back ∧ s.Spells t ∧
      t.loc = Loc.behind (before ++ front.flatMap text) := by
  induction h with
  | nil => cases ht
  | @token before s ss u ts issues hs hloc _ ih =>
    rcases List.mem_cons.1 ht with rfl | ht
    · exact ⟨[], s, ss, rfl, hs, by rw [List.flatMap_nil, List.append_nil]; exact hloc⟩
    · obtain ⟨front, s', back, rfl, hs', hloc'⟩ := ih ht
      exact ⟨s :: front, s', back, rfl, hs', by rw [hloc', List.flatMap_cons, List.append_assoc]⟩
  | @flaw before s ss p ts issues _ _ ih | @silence before s ss ts issues _ _ ih =>
    obtain ⟨front, s', back, rfl, hs', hloc'⟩ := ih ht
    exact ⟨s :: front, s', back, rfl, hs', by rw [hloc', List.flatMap_cons, List.append_assoc]⟩

theorem issue_at (h : Lexes before ss ts issues) {issue : Issue} (hissue : issue ∈ issues) :
    ∃ front s back p, ss = front ++ s :: back ∧ s.Flawed p ∧
      issue = .lexical (Loc.behind (before ++ front.flatMap text)) p := by
  induction h with
  | nil => cases hissue
  | @flaw before s ss p ts issues hs _ ih =>
    rcases List.mem_cons.1 hissue with rfl | hissue
    · exact ⟨[], s, ss, p, rfl, hs, by rw [List.flatMap_nil, List.append_nil]⟩
    · obtain ⟨front, s', back, p', rfl, hs', rfl⟩ := ih hissue
      exact ⟨s :: front, s', back, p', rfl, hs', by rw [List.flatMap_cons, List.append_assoc]⟩
  | @token before s ss t ts issues _ _ _ ih | @silence before s ss ts issues _ _ ih =>
    obtain ⟨front, s', back, p', rfl, hs', rfl⟩ := ih hissue
    exact ⟨s :: front, s', back, p', rfl, hs', by rw [List.flatMap_cons, List.append_assoc]⟩

/-- Each token stands behind the one before it, and the end behind all of them. -/
theorem increasing (h : Lexes before ss ts issues) (hss : ∀ s ∈ ss, s.text ≠ []) :
    (ts.map Token.loc ++ [Loc.behind (before ++ ss.flatMap text)]).Pairwise Loc.Before := by
  induction h with
  | nil => exact List.pairwise_singleton _ _
  | @token before s ss t ts issues _ hloc htail ih =>
    obtain ⟨hs, hss⟩ := List.forall_mem_cons.1 hss
    have hlater : ∀ cs, (Loc.behind before).Before (Loc.behind (before ++ s.text ++ cs)) := by
      intro cs
      rw [List.append_assoc]
      exact Loc.behind_before before (List.append_ne_nil_of_left_ne_nil hs cs)
    have hrest := ih hss
    rw [List.append_assoc, ← List.flatMap_cons] at hrest
    refine List.pairwise_cons.2 ⟨?_, hrest⟩
    rw [hloc]
    refine List.forall_mem_append.2 ⟨List.forall_mem_map.2 fun u hu => ?_, ?_⟩
    · obtain ⟨front, s', back, -, -, hu⟩ := htail.token_at hu
      rw [hu]
      exact hlater _
    · rw [List.forall_mem_singleton, List.flatMap_cons, ← List.append_assoc]
      exact hlater _
  | flaw _ _ ih | silence _ _ ih =>
    have hrest := ih (List.forall_mem_cons.1 hss).2
    rwa [List.append_assoc, ← List.flatMap_cons] at hrest

end Source.Lexes

/-! ## Lines -/

namespace Source

theorem lastLine_of_notMem {cs : List Char} (h : '\n' ∉ cs) : lastLine cs = cs := by
  rw [lastLine, List.rtakeWhile_eq_self_iff]
  exact fun c hc => bne_iff_ne.2 (ne_of_mem_of_not_mem hc h)

theorem lastLine_concat (cs : List Char) (c : Char) :
    lastLine (cs ++ [c]) = if c = '\n' then [] else lastLine cs ++ [c] := by
  rw [lastLine, List.rtakeWhile_concat]
  by_cases hc : c = '\n' <;> simp [hc, lastLine]

/-- What stands in front of a line feed is not in the last line. -/
theorem lastLine_cons {c : Char} {cs : List Char} (h : c = '\n' ∨ '\n' ∈ cs) :
    lastLine (c :: cs) = lastLine cs := by
  induction cs using List.reverseRecOn with
  | nil =>
    rcases h with rfl | h
    · rfl
    · cases h
  | append_singleton cs d ih =>
    rw [← List.cons_append, lastLine_concat, lastLine_concat]
    split
    · rfl
    · rename_i hd
      have hcs : c = '\n' ∨ '\n' ∈ cs := by
        rcases h with h | h
        · exact .inl h
        · rcases List.mem_append.1 h with h | h
          · exact .inr h
          · exact absurd (List.mem_singleton.1 h).symm hd
      rw [ih hcs]

/-- A character that is not part of a line end belongs to the line it stands in. -/
theorem linesOf_cons {c : Char} {cs : List Char} (hfeed : c ≠ '\n')
    (hreturn : c = '\r' → cs.head? ≠ some '\n') :
    linesOf (c :: cs) = (c :: ((linesOf cs).head?.getD [])) :: (linesOf cs).tail := by
  rw [linesOf.eq_4 _ _ hfeed fun rest hc hcs => hreturn hc (by rw [hcs]; rfl)]
  cases linesOf cs with
  | nil => rfl
  | cons line more => rfl

/-- A carriage return is lost in front of a line feed. -/
theorem linesOf_return {cs : List Char} (h : cs.head? = some '\n') :
    linesOf ('\r' :: cs) = linesOf cs := by
  obtain ⟨rest, rfl⟩ := List.head?_eq_some_iff.1 h
  rfl

/-- A character that is not part of a line end is found in the line of its row, and in front of it is
what was counted for its column. -/
theorem linesOf_at (before after : List Char) {c : Char} (hfeed : c ≠ '\n')
    (hreturn : c = '\r' → after.head? ≠ some '\n') :
    ∃ more, (linesOf (before ++ c :: after))[before.count '\n']? =
      some (lastLine before ++ c :: more) := by
  induction before with
  | nil =>
    refine ⟨(linesOf after).head?.getD [], ?_⟩
    rw [List.nil_append, linesOf_cons hfeed hreturn]
    rfl
  | cons b before ih =>
    obtain ⟨more, hmore⟩ := ih
    refine ⟨more, ?_⟩
    by_cases hb : b = '\n'
    · subst hb
      rw [lastLine_cons (.inl rfl), List.count_cons_self, List.cons_append, linesOf.eq_2,
        List.getElem?_cons_succ]
      exact hmore
    rw [List.count_cons_of_ne hb, List.cons_append]
    by_cases hmem : '\n' ∈ before
    · -- The line ends before the position, so what `b` adds to it is not in the line looked for.
      rw [lastLine_cons (.inr hmem)]
      by_cases hlost : b = '\r' ∧ (before ++ c :: after).head? = some '\n'
      · rw [hlost.1, linesOf_return hlost.2]
        exact hmore
      · rw [linesOf_cons hb fun h h' => hlost ⟨h, h'⟩]
        obtain ⟨n, hn⟩ := Nat.exists_eq_succ_of_ne_zero (List.count_pos_iff.2 hmem).ne'
        rw [hn] at hmore ⊢
        rw [List.getElem?_cons_succ, List.getElem?_tail]
        exact hmore
    · rw [List.count_eq_zero.2 hmem, lastLine_of_notMem hmem] at hmore
      have hnext : (before ++ c :: after).head? ≠ some '\n' := by
        intro hhead
        cases before with
        | nil => exact hfeed (Option.some.inj hhead)
        | cons d before => exact hmem (Option.some.inj hhead ▸ List.mem_cons_self)
      rw [linesOf_cons hb fun _ => hnext, List.count_eq_zero.2 hmem,
        lastLine_of_notMem (by simpa using ⟨Ne.symm hb, hmem⟩)]
      rw [List.getElem?_cons_zero, List.head?_eq_getElem?, hmore]
      rfl

/-- The end of a text is at most one column behind the line of its row. -/
theorem length_lastLine_le (source : String) :
    (lastLine source.toList).length ≤ (line source (Loc.behind source.toList).row).length := by
  cases hcs : source.toList using List.reverseRecOn with
  | nil => exact Nat.zero_le _
  | append_singleton cs c =>
    rw [lastLine_concat]
    split
    · exact Nat.zero_le _
    · rename_i hfeed
      obtain ⟨more, hmore⟩ := linesOf_at cs [] hfeed nofun
      have hrow : (Loc.behind (cs ++ [c])).row - 1 = cs.count '\n' := by
        rw [Loc.behind, List.count_append, List.count_singleton]
        simp [hfeed]
      rw [line, hrow, lines, hcs, List.getElem?_map, hmore]
      simp

end Source

/-! ## Carets -/

namespace Diagnostic

/-- The caret as it is shown. -/
def caret (d : Diagnostic) (color : Bool) : String :=
  if color then Color.bold ++ d.kind.tint ++ "^" ++ Color.reset else "^"

/-- Below a source line that starts with `before`, the diagnostic is shown with its caret under the
character `c` behind it. -/
def PointsAt (d : Diagnostic) (source : String) (before : List Char) (c : Char) : Prop :=
  ∃ after, (Source.lines source)[d.loc.row - 1]? = some (String.ofList (before ++ c :: after)) ∧
    d.loc.col = before.length + 1 ∧
    ∀ color, ∃ head, d.render source color =
      head ++ "\n    " ++ String.ofList (before ++ c :: after) ++
        "\n    " ++ String.ofList (List.replicate before.length ' ') ++ d.caret color ++ "\n"

theorem padding_eq (d : Diagnostic) :
    d.padding = "    " ++ String.ofList (List.replicate (d.loc.col - 1) ' ') := by
  have hpushn : ∀ n, ("".pushn ' ' n).toList = List.replicate n ' ' := by
    intro n
    rw [String.pushn_eq_repeat_push]
    induction n with
    | zero => rfl
    | succ n ih => rw [Nat.repeat, String.toList_push, ih, List.replicate_succ']
  rw [← String.toList_inj, padding, hpushn, Nat.add_comm, List.replicate_add]
  simp

/-- A diagnostic is its header, its source line and, below the line, its caret. -/
theorem render_eq (d : Diagnostic) (source : String) (color : Bool) :
    ∃ head, d.render source color =
      head ++ "\n    " ++ Source.line source d.loc.row ++
        "\n    " ++ String.ofList (List.replicate (d.loc.col - 1) ' ') ++ d.caret color ++ "\n" := by
  cases color with
  | false =>
    refine ⟨d.header, ?_⟩
    simp [render, padding_eq, caret, ← String.toList_inj]
  | true =>
    refine ⟨Color.bold ++ d.loc.text ++ ": " ++ d.kind.tint ++ d.kind.label ++ ":" ++ Color.reset ++
      " " ++ d.message, ?_⟩
    simp [render, padding_eq, caret, ← String.toList_inj]

/-- A diagnostic at the position of a character points at that character. -/
theorem pointsAt {d : Diagnostic} {source : String} {front back : List Char} {c : Char}
    (hsource : source.toList = front ++ c :: back) (hfeed : c ≠ '\n') (hreturn : c ≠ '\r')
    (hloc : d.loc = Loc.behind front) : d.PointsAt source (Source.lastLine front) c := by
  obtain ⟨more, hmore⟩ := Source.linesOf_at front back hfeed fun hc => absurd hc hreturn
  have hrow : d.loc.row - 1 = front.count '\n' := by
    rw [hloc]
    exact Nat.add_sub_cancel_left _ _
  have hcol : d.loc.col = (Source.lastLine front).length + 1 := by
    rw [hloc]
    exact Nat.add_comm _ _
  have hline : (Source.lines source)[d.loc.row - 1]? =
      some (String.ofList (Source.lastLine front ++ c :: more)) := by
    rw [Source.lines, hsource, hrow, List.getElem?_map, hmore]
    rfl
  refine ⟨more, hline, hcol, fun color => ?_⟩
  obtain ⟨head, hrender⟩ := d.render_eq source color
  refine ⟨head, ?_⟩
  rw [hrender, Source.line, hline, hcol]
  rfl

end Diagnostic

end WordC
