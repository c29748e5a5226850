import Mathlib.Data.List.DropRight
import Mathlib.Data.Nat.Digits.Defs
import WordC.Token.Stream

/-!
# Every text is cut in one way

What a segment is can be said without saying how it is found: a segment is whole if it is one of its
kind and could not go on into the text behind it. Every text is covered by whole segments, there is
only one way to do it, and that is how texts are cut.

* `Loc.behind`: the position behind a text, counted in the text.
* `Segment.Whole`, `Segment.Covers`: segments that cover a text, each as long as it can be.
* `Segment.covers_iff`: the segments that cover a text are those it is cut into.
* `Source.Lexes`: what the segments of a text come to, one after another: a token, an issue or
  nothing.
* `Source.tokenize_lossless`: the tokens and the issues of a text are what its segments come to.
-/
namespace WordC

/-! ## Positions -/

/-- The last line of a text, which has no line feed. -/
def Source.lastLine (before : List Char) : List Char := before.rtakeWhile (· != '\n')

/-- The position behind a text: a row for each line feed, and a column for each character behind the
last of them. -/
def Loc.behind (before : List Char) : Loc :=
  ⟨1 + before.count '\n', 1 + (Source.lastLine before).length⟩

theorem Loc.behind_concat (before : List Char) (c : Char) :
    Loc.behind (before ++ [c]) = (Loc.behind before).after c := by
  unfold Loc.behind Source.lastLine Loc.after
  rw [List.count_append, List.rtakeWhile_concat]
  by_cases hc : c = '\n'
  · subst hc
    simp [Nat.add_assoc]
  · simp [hc, Nat.add_assoc]

/-- Positions are counted along the text. -/
theorem Loc.behind_append (before cs : List Char) :
    Loc.behind (before ++ cs) = (Loc.behind before).advance cs := by
  induction cs generalizing before with
  | nil => rw [List.append_nil, Loc.advance_nil]
  | cons c cs ih => rw [List.append_cons, ih, Loc.behind_concat, Loc.advance_cons]

theorem Loc.advance_start (cs : List Char) : Loc.start.advance cs = Loc.behind cs :=
  (Loc.behind_append [] cs).symm

namespace Segment

/-! ## Whole segments -/

def Blank (c : Char) : Prop := c ∈ [' ', '\t', '\n', '\x0c', '\r']

def Digit (c : Char) : Prop := '0' ≤ c ∧ c ≤ '9'

/-- A letter or an underscore. -/
def Letter (c : Char) : Prop := ('a' ≤ c ∧ c ≤ 'z') ∨ ('A' ≤ c ∧ c ≤ 'Z') ∨ c = '_'

def punctuators : List String :=
  ["==", "!=", "<=", ">=", "+", "-", "*", "/", "(", ")", "<", ">", ";", "=", "\x7b", "\x7d", "&",
    ",", "[", "]"]

/-- What a comment starts with. -/
def commentMarks : List String := ["//", "/*"]

/-- What a block comment ends with. -/
def closing : List Char := ['*', '/']

/-- The segment is one of its kind, and it does not go on into the text `behind` it. -/
def Whole : Segment → List Char → Prop
  | blank c, _ => Blank c
  | lineComment body, behind => '\n' ∉ body ∧ ∀ c ∈ behind.head?, c = '\n'
  | blockComment body, _ => ¬closing <:+: body ++ ['*']
  | openComment body, behind => ¬closing <:+: body ∧ behind = []
  | digits run, behind => run ≠ [] ∧ (∀ c ∈ run, Digit c) ∧ ∀ c ∈ behind.head?, ¬Digit c
  | word run, behind =>
    (∃ c cs, run = c :: cs ∧ Letter c ∧ ∀ d ∈ cs, Letter d ∨ Digit d) ∧
      ∀ c ∈ behind.head?, ¬(Letter c ∨ Digit c)
  | punctuator run, behind =>
    String.ofList run ∈ punctuators ∧
      ∀ d ∈ behind.head?, String.ofList (run ++ [d]) ∉ punctuators ++ commentMarks
  | stray c, behind =>
    ¬Blank c ∧ ¬Digit c ∧ ¬Letter c ∧ String.ofList [c] ∉ punctuators ∧
      ∀ d ∈ behind.head?, String.ofList [c, d] ∉ punctuators

/-- The segments stand one behind the other in the text, and each is whole there. -/
inductive Covers : List Segment → List Char → Prop where
  | nil : Covers [] []
  | cons {s : Segment} {ss : List Segment} {behind : List Char} : s.Whole behind →
    Covers ss behind → Covers (s :: ss) (s.text ++ behind)

theorem Covers.text_eq {ss : List Segment} {cs : List Char} (h : Covers ss cs) :
    ss.flatMap text = cs := by
  induction h with
  | nil => rfl
  | cons _ _ ih => rw [List.flatMap_cons, ih]

theorem Covers.whole {before after : List Segment} {s : Segment} {cs : List Char}
    (h : Covers (before ++ s :: after) cs) : s.Whole (after.flatMap text) := by
  induction before generalizing cs with
  | nil =>
    cases h with
    | cons hs hss => rwa [hss.text_eq]
  | cons b before ih =>
    cases h with
    | cons _ hss => exact ih hss

/-! ## Classes of characters -/

theorem isBlank_iff {c : Char} : isBlank c ↔ Blank c := by
  simp [isBlank, Blank, or_assoc]

theorem isDigit_iff {c : Char} : c.isDigit ↔ Digit c := by
  simp [Char.isDigit, Digit, Char.le_def]

theorem isWordStart_iff {c : Char} : isWordStart c ↔ Letter c := by
  delta isWordStart Char.isAlpha Char.isUpper Char.isLower
  simp only [Letter, Char.le_def, Bool.or_eq_true, Bool.and_eq_true, decide_eq_true_eq, beq_iff_eq,
    ge_iff_le]
  tauto

theorem isWordPart_iff {c : Char} : isWordPart c ↔ Letter c ∨ Digit c := by
  rw [← isWordStart_iff, ← isDigit_iff]
  simp only [isWordPart, isWordStart, Char.isAlphanum, Bool.or_eq_true]
  tauto

theorem Letter.not_digit {c : Char} (h : Letter c) : ¬Digit c := by
  rintro ⟨hlow, hhigh⟩
  rcases h with ⟨ha, -⟩ | ⟨ha, -⟩ | rfl
  · exact absurd (Char.le_trans ha hhigh) (by decide)
  · exact absurd (Char.le_trans ha hhigh) (by decide)
  · exact absurd hhigh (by decide)

theorem punctuators_eq :
    punctuators = pairs.map (fun p => String.ofList [p.1, p.2]) ++
      singles.map fun c => String.ofList [c] := by
  decide

theorem single_mem_punctuators {c : Char} : String.ofList [c] ∈ punctuators ↔ c ∈ singles := by
  simp only [punctuators_eq, List.mem_append, List.mem_map, String.ofList_inj]
  simp

theorem pair_mem_punctuators {c d : Char} : String.ofList [c, d] ∈ punctuators ↔ (c, d) ∈ pairs := by
  simp only [punctuators_eq, List.mem_append, List.mem_map, String.ofList_inj]
  simp

theorem pair_mem_commentMarks {c d : Char} :
    String.ofList [c, d] ∈ commentMarks ↔ c = '/' ∧ (d = '/' ∨ d = '*') := by
  have hmarks : commentMarks = [String.ofList ['/', '/'], String.ofList ['/', '*']] := by decide
  simp only [hmarks, List.mem_cons, List.not_mem_nil, or_false, String.ofList_inj, List.cons.injEq,
    and_true]
  tauto

/-- No punctuator and no comment mark has three characters. -/
theorem triple_notMem {c d e : Char} : String.ofList [c, d, e] ∉ punctuators ++ commentMarks := by
  intro h
  have hlength : ∀ text ∈ punctuators ++ commentMarks, text.toList.length ≤ 2 := by decide
  have hle := hlength _ h
  simp at hle

/-! ## Comments -/

theorem closing_isPrefix_cons {c : Char} {cs : List Char} :
    closing <+: c :: cs ↔ c = '*' ∧ cs.head? = some '/' := by
  cases cs with
  | nil => simp [closing]
  | cons d cs => simp [closing, eq_comm]

/-- A block comment never ends if its text has no closing marker. -/
theorem closeComment?_eq_none {cs : List Char} (h : closeComment? cs = none) :
    ¬closing <:+: cs := by
  fun_induction closeComment? cs with
  | case1 => simp [closing]
  | case2 rest => cases h
  | case3 c cs hopen ih =>
    rw [List.infix_cons_iff, closing_isPrefix_cons]
    rintro (⟨rfl, hhead⟩ | hinfix)
    · obtain ⟨rest, rfl⟩ := List.head?_eq_some_iff.1 hhead
      exact hopen rest rfl rfl
    · exact ih (Option.map_eq_none_iff.1 h) hinfix

/-- A block comment ends with the first closing marker. -/
theorem closeComment?_eq_some {cs body rest : List Char} (h : closeComment? cs = some (body, rest)) :
    cs = body ++ closing ++ rest ∧ ¬closing <:+: body ++ ['*'] := by
  fun_induction closeComment? cs generalizing body with
  | case1 => cases h
  | case2 rest => cases h; exact ⟨rfl, by decide⟩
  | case3 c cs hopen ih =>
    obtain ⟨⟨body', rest'⟩, hclose, hpair⟩ := Option.map_eq_some_iff.1 h
    cases hpair
    obtain ⟨rfl, hfirst⟩ := ih hclose
    refine ⟨rfl, ?_⟩
    rw [List.cons_append, List.infix_cons_iff, closing_isPrefix_cons]
    rintro (⟨rfl, hhead⟩ | hinfix)
    · -- A slash right behind the star would have ended the comment there.
      cases body' with
      | nil => simp at hhead
      | cons d body' =>
        cases hhead
        exact hopen _ rfl rfl
    · exact hfirst hinfix

theorem closeComment?_of_unclosed {cs : List Char} (h : ¬closing <:+: cs) :
    closeComment? cs = none := by
  cases hclose : closeComment? cs with
  | none => rfl
  | some ends =>
    obtain ⟨rfl, -⟩ := closeComment?_eq_some hclose
    exact absurd ⟨ends.1, ends.2, rfl⟩ h

theorem closeComment?_of_first {body rest : List Char} (h : ¬closing <:+: body ++ ['*']) :
    closeComment? (body ++ closing ++ rest) = some (body, rest) := by
  induction body with
  | nil => rfl
  | cons c body ih =>
    rw [List.cons_append, List.infix_cons_iff, closing_isPrefix_cons, not_or] at h
    have hopen : ∀ tail, c = '*' → body ++ closing ++ rest = '/' :: tail → False := by
      intro tail hstar htail
      refine h.1 ⟨hstar, ?_⟩
      cases body with
      | nil => cases htail
      | cons d body => exact congrArg some (List.cons.inj htail).1
    rw [List.cons_append, List.cons_append, closeComment?.eq_3 _ _ hopen, ih h.2]
    rfl

/-! ## The first segment of a text -/

theorem head?_dropWhile {p : Char → Bool} {cs : List Char} {c : Char}
    (h : c ∈ (cs.dropWhile p).head?) : p c = false := by
  have hnot := List.head?_dropWhile_not p cs
  rwa [h] at hnot

theorem takeWhile_run {p : Char → Bool} {run behind : List Char} (hrun : ∀ c ∈ run, p c)
    (hbehind : ∀ c ∈ behind.head?, p c = false) :
    (run ++ behind).takeWhile p = run ∧ (run ++ behind).dropWhile p = behind := by
  rw [List.takeWhile_append_of_pos hrun, List.dropWhile_append_of_pos hrun]
  cases behind with
  | nil => simp
  | cons c behind => simp [hbehind c rfl]

theorem first_lineComment (rest : List Char) :
    first '/' ('/' :: rest) =
      (lineComment (rest.takeWhile (· != '\n')), rest.dropWhile (· != '\n')) := rfl

theorem first_blockComment (rest : List Char) :
    first '/' ('*' :: rest) =
      match closeComment? rest with
      | some (body, behind) => (blockComment body, behind)
      | none => (openComment rest, []) := rfl

/-- A character that is no blank and starts no comment. -/
theorem first_plain {c : Char} {cs : List Char} (hblank : isBlank c = false)
    (hcomment : ∀ d ∈ cs.head?, String.ofList [c, d] ∉ commentMarks) :
    first c cs =
      if c.isDigit then (digits (c :: cs.takeWhile Char.isDigit), cs.dropWhile Char.isDigit)
      else if isWordStart c then (word (c :: cs.takeWhile isWordPart), cs.dropWhile isWordPart)
      else symbol c cs := by
  unfold first
  rw [if_neg (by rw [hblank]; decide)]
  split
  · exact absurd (pair_mem_commentMarks.2 ⟨rfl, .inl rfl⟩) (hcomment _ rfl)
  · exact absurd (pair_mem_commentMarks.2 ⟨rfl, .inr rfl⟩) (hcomment _ rfl)
  · rfl

theorem symbol_whole {c : Char} {cs : List Char} (hblank : ¬Blank c) (hdigit : ¬Digit c)
    (hletter : ¬Letter c) (hcomment : ∀ d ∈ cs.head?, String.ofList [c, d] ∉ commentMarks) :
    (symbol c cs).1.Whole (symbol c cs).2 ∧ (symbol c cs).1.text ++ (symbol c cs).2 = c :: cs := by
  cases cs with
  | nil =>
    unfold symbol
    dsimp only
    split
    · rename_i hsingle
      exact ⟨⟨single_mem_punctuators.2 hsingle, nofun⟩, rfl⟩
    · rename_i hsingle
      exact ⟨⟨hblank, hdigit, hletter, mt single_mem_punctuators.1 hsingle, nofun⟩, rfl⟩
  | cons d rest =>
    unfold symbol
    dsimp only
    split
    · rename_i hpair
      exact ⟨⟨pair_mem_punctuators.2 hpair, fun _ _ => triple_notMem⟩, rfl⟩
    rename_i hpair
    split
    · rename_i hsingle
      refine ⟨⟨single_mem_punctuators.2 hsingle, fun e he => ?_⟩, rfl⟩
      cases he
      rw [List.mem_append, not_or]
      exact ⟨mt pair_mem_punctuators.1 hpair, hcomment d rfl⟩
    · rename_i hsingle
      refine ⟨⟨hblank, hdigit, hletter, mt single_mem_punctuators.1 hsingle, fun e he => ?_⟩, rfl⟩
      cases he
      exact mt pair_mem_punctuators.1 hpair

/-- What is cut off a text is whole, and nothing is lost. -/
theorem first_whole (c : Char) (cs : List Char) :
    (first c cs).1.Whole (first c cs).2 ∧ (first c cs).1.text ++ (first c cs).2 = c :: cs := by
  by_cases hblank : isBlank c
  · unfold first
    rw [if_pos hblank]
    exact ⟨isBlank_iff.1 hblank, rfl⟩
  by_cases hcomment : ∀ d ∈ cs.head?, String.ofList [c, d] ∉ commentMarks
  · rw [first_plain (by simpa using hblank) hcomment]
    split
    · rename_i hdigit
      refine ⟨⟨List.cons_ne_nil _ _, ?_, fun d hd => ?_⟩, ?_⟩
      · refine List.forall_mem_cons.2 ⟨isDigit_iff.1 hdigit, fun d hd => ?_⟩
        exact isDigit_iff.1 (List.mem_takeWhile_imp hd)
      · rw [← isDigit_iff, head?_dropWhile hd]
        decide
      · exact congrArg (c :: ·) List.takeWhile_append_dropWhile
    rename_i hdigit
    split
    · rename_i hletter
      refine ⟨⟨⟨c, _, rfl, isWordStart_iff.1 hletter, fun d hd => ?_⟩, fun d hd => ?_⟩, ?_⟩
      · exact isWordPart_iff.1 (List.mem_takeWhile_imp hd)
      · rw [← isWordPart_iff, head?_dropWhile hd]
        decide
      · exact congrArg (c :: ·) List.takeWhile_append_dropWhile
    · rename_i hletter
      exact symbol_whole (mt isBlank_iff.2 hblank) (mt isDigit_iff.2 hdigit)
        (mt isWordStart_iff.2 hletter) hcomment
  · -- The two marks of a comment.
    push Not at hcomment
    obtain ⟨d, hd, hmark⟩ := hcomment
    obtain ⟨rest, rfl⟩ := List.head?_eq_some_iff.1 hd
    obtain ⟨rfl, rfl | rfl⟩ := pair_mem_commentMarks.1 hmark
    · refine ⟨⟨fun hmem => ?_, fun e he => ?_⟩, ?_⟩
      · simpa using List.mem_takeWhile_imp hmem
      · simpa using head?_dropWhile he
      · exact congrArg ('/' :: '/' :: ·) List.takeWhile_append_dropWhile
    · rw [first_blockComment]
      split
      · rename_i body behind hclose
        obtain ⟨rfl, hfirst⟩ := closeComment?_eq_some hclose
        exact ⟨hfirst, by simp [text, closing]⟩
      · rename_i hclose
        exact ⟨⟨closeComment?_eq_none hclose, rfl⟩, List.append_nil _⟩

/-- A character of a class without blanks and slashes starts no comment. -/
theorem first_plain_of {p : Char → Bool} {c : Char} {cs : List Char} (hc : p c)
    (hp : [' ', '\t', '\n', '\x0c', '\r', '/'].any p = false) :
    first c cs =
      if c.isDigit then (digits (c :: cs.takeWhile Char.isDigit), cs.dropWhile Char.isDigit)
      else if isWordStart c then (word (c :: cs.takeWhile isWordPart), cs.dropWhile isWordPart)
      else symbol c cs := by
  have hne : ∀ d ∈ [' ', '\t', '\n', '\x0c', '\r', '/'], c ≠ d := by
    rintro d hd rfl
    exact List.any_eq_false.1 hp c hd hc
  refine first_plain ?_ fun d _ hd => ?_
  · rw [← Bool.not_eq_true, isBlank_iff]
    exact fun hblank => hne c (List.mem_append_left ['/'] hblank) rfl
  · exact hne '/' (by decide) (pair_mem_commentMarks.1 hd).1

/-- A whole segment is what is cut off in front of the text behind it. -/
theorem first_of_whole {s : Segment} {behind : List Char} (h : s.Whole behind) :
    ∃ c cs, s.text = c :: cs ∧ first c (cs ++ behind) = (s, behind) := by
  cases s with
  | blank c =>
    refine ⟨c, [], rfl, ?_⟩
    unfold first
    rw [if_pos (isBlank_iff.2 h), List.nil_append]
  | lineComment body =>
    obtain ⟨hbody, hbehind⟩ := h
    refine ⟨'/', '/' :: body, rfl, ?_⟩
    have hrun : ∀ c ∈ body, (c != '\n') = true := fun c hc => bne_iff_ne.2 (ne_of_mem_of_not_mem hc hbody)
    have hends : ∀ c ∈ behind.head?, (c != '\n') = false := fun c hc => by simp [hbehind c hc]
    obtain ⟨htake, hdrop⟩ := takeWhile_run hrun hends
    rw [List.cons_append, first_lineComment, htake, hdrop]
  | blockComment body =>
    refine ⟨'/', '*' :: (body ++ closing), rfl, ?_⟩
    rw [List.cons_append, first_blockComment, closeComment?_of_first h]
  | openComment body =>
    obtain ⟨hbody, rfl⟩ := h
    refine ⟨'/', '*' :: body, rfl, ?_⟩
    rw [List.append_nil, first_blockComment, closeComment?_of_unclosed hbody]
  | digits run =>
    obtain ⟨hne, hrun, hbehind⟩ := h
    obtain ⟨c, cs, rfl⟩ := List.exists_cons_of_ne_nil hne
    simp only [← isDigit_iff, List.forall_mem_cons, Bool.not_eq_true] at hrun hbehind
    refine ⟨c, cs, rfl, ?_⟩
    obtain ⟨htake, hdrop⟩ := takeWhile_run hrun.2 hbehind
    rw [first_plain_of hrun.1 (by decide), if_pos hrun.1, htake, hdrop]
  | word run =>
    obtain ⟨⟨c, cs, rfl, hc, hcs⟩, hbehind⟩ := h
    have hdigit : c.isDigit = false := by
      rw [← Bool.not_eq_true, isDigit_iff]
      exact hc.not_digit
    simp only [← isWordPart_iff, Bool.not_eq_true] at hcs hbehind
    rw [← isWordStart_iff] at hc
    refine ⟨c, cs, rfl, ?_⟩
    obtain ⟨htake, hdrop⟩ := takeWhile_run hcs hbehind
    rw [first_plain_of hc (by decide), hdigit, if_neg (by decide), if_pos hc, htake, hdrop]
  | punctuator run =>
    obtain ⟨hrun, hbehind⟩ := h
    rw [punctuators_eq, List.mem_append, List.mem_map, List.mem_map] at hrun
    rcases hrun with ⟨⟨c, d⟩, hpair, heq⟩ | ⟨c, hsingle, heq⟩
    · rw [String.ofList_inj] at heq
      subst heq
      have hclass : ∀ p ∈ pairs, isBlank p.1 = false ∧ p.1 ≠ '/' ∧ p.1.isDigit = false ∧
          isWordStart p.1 = false := by decide
      obtain ⟨hblank, hslash, hdigit, hletter⟩ := hclass _ hpair
      refine ⟨c, [d], rfl, ?_⟩
      rw [first_plain hblank fun e _ he => hslash (pair_mem_commentMarks.1 he).1]
      simp [hdigit, hletter, symbol, hpair]
    · rw [String.ofList_inj] at heq
      subst heq
      have hclass : (singles.any fun c => isBlank c || c.isDigit || isWordStart c) = false := by
        decide
      have hplain := List.any_eq_false.1 hclass c hsingle
      simp only [Bool.or_eq_true, not_or, Bool.not_eq_true] at hplain
      obtain ⟨⟨hblank, hdigit⟩, hletter⟩ := hplain
      refine ⟨c, [], rfl, ?_⟩
      rw [List.nil_append, first_plain hblank fun d hd hmark =>
        hbehind d hd (List.mem_append_right _ hmark)]
      cases behind with
      | nil => simp [hdigit, hletter, symbol, hsingle]
      | cons d behind =>
        have hpair : (c, d) ∉ pairs := fun hpair =>
          hbehind d rfl (List.mem_append_left _ (pair_mem_punctuators.2 hpair))
        simp [hdigit, hletter, symbol, hsingle, hpair]
  | stray c =>
    obtain ⟨hblank, hdigit, hletter, hsingle, hbehind⟩ := h
    simp only [← isBlank_iff, ← isDigit_iff, ← isWordStart_iff, Bool.not_eq_true] at hblank hdigit hletter
    rw [single_mem_punctuators] at hsingle
    have hslash : c ≠ '/' := by
      rintro rfl
      exact hsingle (by decide)
    refine ⟨c, [], rfl, ?_⟩
    rw [List.nil_append, first_plain hblank fun e _ he => hslash (pair_mem_commentMarks.1 he).1]
    cases behind with
    | nil => simp [hdigit, hletter, symbol, hsingle]
    | cons d behind =>
      have hpair : (c, d) ∉ pairs := fun hpair => hbehind d rfl (pair_mem_punctuators.2 hpair)
      simp [hdigit, hletter, symbol, hsingle, hpair]

/-! ## The whole text -/

theorem covers_split (cs : List Char) : Covers (split cs) cs := by
  fun_induction split cs with
  | case1 => exact .nil
  | case2 c cs ih =>
    obtain ⟨hwhole, htext⟩ := first_whole c cs
    have hcovers := Covers.cons hwhole ih
    rwa [htext] at hcovers

/-- A text is covered in one way only, the one in which it is cut. -/
theorem covers_iff {ss : List Segment} {cs : List Char} : Covers ss cs ↔ ss = split cs := by
  constructor
  · intro h
    induction h with
    | nil => rw [split]
    | cons hs _ ih =>
      obtain ⟨c, cs, htext, hfirst⟩ := first_of_whole hs
      rw [htext, List.cons_append, split, hfirst, ih]
  · rintro rfl
    exact covers_split cs

/-! ## What a segment comes to -/

/-- The number that digits are in the decimal system. -/
def decimal (run : List Char) : Nat :=
  Nat.ofDigits 10 (run.reverse.map fun c => c.toNat - '0'.toNat)

theorem value_eq_decimal (run : List Char) : value run = decimal run := by
  unfold value decimal
  induction run using List.reverseRecOn with
  | nil => rfl
  | append_singleton run c ih =>
    have hconcat : Nat.ofDigitChars 10 (run ++ [c]) 0 =
        10 * Nat.ofDigitChars 10 run 0 + (c.toNat - '0'.toNat) := by
      simp [Nat.ofDigitChars]
    rw [hconcat, ih]
    simp [Nat.ofDigits_cons, Nat.add_comm]

/-- The segment is the token, wherever it stands. -/
inductive Spells : Segment → Token → Prop where
  | number {run : List Char} {loc : Loc} : decimal run < 2 ^ 63 →
    Spells (digits run) ⟨.num, String.ofList run, some (decimal run), loc⟩
  | keyword {run : List Char} {loc : Loc} : String.ofList run ∈ keywords →
    Spells (word run) ⟨.keyword, String.ofList run, none, loc⟩
  | name {run : List Char} {loc : Loc} : String.ofList run ∉ keywords →
    Spells (word run) ⟨.ident, String.ofList run, none, loc⟩
  | mark {run : List Char} {loc : Loc} :
    Spells (punctuator run) ⟨.punctuator, String.ofList run, none, loc⟩

/-- The segment is no token, and this is the matter with it. -/
inductive Flawed : Segment → LexicalProblem → Prop where
  | number {run : List Char} : 2 ^ 63 ≤ decimal run → Flawed (digits run) .numberTooLarge
  | comment {body : List Char} : Flawed (openComment body) .unterminatedComment
  | character {c : Char} : Flawed (stray c) (.strayCharacter c)

/-- The segment is there to be skipped. -/
inductive Silent : Segment → Prop where
  | blank {c : Char} : Silent (blank c)
  | lineComment {body : List Char} : Silent (lineComment body)
  | blockComment {body : List Char} : Silent (blockComment body)

/-- A segment comes to one of the three. -/
theorem comes_to (s : Segment) (loc : Loc) :
    (∃ t, s.token? loc = some t ∧ s.problem? = none ∧ s.Spells t ∧ t.loc = loc) ∨
    (∃ p, s.token? loc = none ∧ s.problem? = some p ∧ s.Flawed p) ∨
    (s.token? loc = none ∧ s.problem? = none ∧ s.Silent) := by
  cases s with
  | blank c => exact .inr (.inr ⟨rfl, rfl, .blank⟩)
  | lineComment body => exact .inr (.inr ⟨rfl, rfl, .lineComment⟩)
  | blockComment body => exact .inr (.inr ⟨rfl, rfl, .blockComment⟩)
  | openComment body => exact .inr (.inl ⟨_, rfl, rfl, .comment⟩)
  | stray c => exact .inr (.inl ⟨_, rfl, rfl, .character⟩)
  | punctuator run => exact .inl ⟨_, rfl, rfl, .mark, rfl⟩
  | word run =>
    refine .inl ⟨_, rfl, rfl, ?_, rfl⟩
    split
    · rename_i hkeyword
      exact .keyword hkeyword
    · rename_i hkeyword
      exact .name hkeyword
  | digits run =>
    have hgreatest : (value run : Int) ≤ Word.greatest ↔ decimal run < 2 ^ 63 := by
      rw [value_eq_decimal, Word.greatest]
      omega
    by_cases hfits : (value run : Int) ≤ Word.greatest
    · refine .inl ⟨_, if_pos hfits, if_pos hfits, ?_, rfl⟩
      rw [value_eq_decimal]
      exact .number (hgreatest.1 hfits)
    · refine .inr (.inl ⟨_, if_neg hfits, if_neg hfits, .number ?_⟩)
      exact Nat.le_of_not_lt (mt hgreatest.2 hfits)

end Segment

/-! ## Tokens and issues -/

namespace Source

open Segment

/-- What segments behind the text `before` come to: each is a token, an issue or nothing, and tokens
and issues stand where their segments begin. -/
inductive Lexes : List Char → List Segment → List Token → List Issue → Prop where
  | nil {before : List Char} : Lexes before [] [] []
  | token {before : List Char} {s : Segment} {ss : List Segment} {t : Token} {ts : List Token}
    {issues : List Issue} : s.Spells t → t.loc = Loc.behind before →
    Lexes (before ++ s.text) ss ts issues → Lexes before (s :: ss) (t :: ts) issues
  | flaw {before : List Char} {s : Segment} {ss : List Segment} {p : LexicalProblem}
    {ts : List Token} {issues : List Issue} : s.Flawed p →
    Lexes (before ++ s.text) ss ts issues →
    Lexes before (s :: ss) ts (.lexical (Loc.behind before) p :: issues)
  | silence {before : List Char} {s : Segment} {ss : List Segment} {ts : List Token}
    {issues : List Issue} : s.Silent → Lexes (before ++ s.text) ss ts issues →
    Lexes before (s :: ss) ts issues

theorem lexes_along (ss : List Segment) : ∀ before,
    Lexes before ss ((Placed.along (Loc.behind before) ss).filterMap Placed.token?)
      ((Placed.along (Loc.behind before) ss).filterMap Placed.issue?) := by
  induction ss with
  | nil => intro before; exact .nil
  | cons s ss ih =>
    intro before
    have hrest := ih (before ++ s.text)
    rw [Loc.behind_append] at hrest
    rw [Placed.along, List.filterMap_cons, List.filterMap_cons]
    simp only [Placed.token?, Placed.issue?]
    rcases s.comes_to (Loc.behind before) with
      ⟨t, htoken, hproblem, hs, hloc⟩ | ⟨p, htoken, hproblem, hs⟩ | ⟨htoken, hproblem, hs⟩
    · rw [htoken, hproblem]
      exact .token hs hloc hrest
    · rw [htoken, hproblem]
      exact .flaw hs hrest
    · rw [htoken, hproblem]
      exact .silence hs hrest

/-- The tokens of a text, up to the end mark, and its issues are what its segments come to. -/
theorem lexes_tokenize (source : String) :
    ∃ tokens, Lexes [] (split source.toList) tokens (tokenize source).issues ∧
      (tokenize source).tokens = tokens ++ [.endMark (Loc.behind source.toList)] := by
  refine ⟨(segments source).filterMap Placed.token?, lexes_along _ [], ?_⟩
  rw [← Loc.advance_start]
  rfl

theorem Lexes.lexical {before : List Char} {ss : List Segment} {ts : List Token}
    {issues : List Issue} (h : Lexes before ss ts issues) :
    ∀ issue ∈ issues, issue.toDiagnostic.kind = .lexical := by
  induction h with
  | nil => exact List.forall_mem_nil _
  | token _ _ _ ih | silence _ _ ih => exact ih
  | flaw _ _ ih => exact List.forall_mem_cons.2 ⟨rfl, ih⟩

/-- **Nothing is lost, and everything is as long as it can be.** A text is covered by whole segments in
one way; its tokens, up to the end mark, and its issues are what these come to, in order. So an equals
sign, a less-than or a greater-than never stands in front of an equals sign, and a slash never in front
of what would make it a comment. -/
theorem tokenize_lossless (source : String) :
    ∃ segments tokens,
      segments.flatMap Segment.text = source.toList ∧
      (∀ segments', Covers segments' source.toList ↔ segments' = segments) ∧
      Lexes [] segments tokens (tokenize source).issues ∧
      (tokenize source).tokens = tokens ++ [.endMark (Loc.behind source.toList)] ∧
      (∀ issue ∈ (tokenize source).issues, issue.toDiagnostic.kind = .lexical) ∧
      ∀ before c after, segments = before ++ punctuator [c] :: after →
        ∀ d ∈ (after.flatMap Segment.text).head?,
          (c ∈ ['=', '<', '>'] → d ≠ '=') ∧ (c = '/' → d ≠ '/' ∧ d ≠ '*') := by
  obtain ⟨tokens, hlexes, htokens⟩ := lexes_tokenize source
  refine ⟨split source.toList, tokens, (covers_split _).text_eq, fun _ => covers_iff, hlexes, htokens,
    hlexes.lexical, ?_⟩
  intro before c after hsplit d hd
  have hwhole := (hsplit ▸ covers_split source.toList).whole.2 d hd
  rw [List.mem_append, not_or] at hwhole
  constructor
  · rintro hc rfl
    have hpair : (c, '=') ∈ pairs := by
      simp only [List.mem_cons, List.not_mem_nil, or_false] at hc
      rcases hc with rfl | rfl | rfl <;> decide
    exact hwhole.1 (pair_mem_punctuators.2 hpair)
  · rintro rfl
    constructor
    · rintro rfl
      exact hwhole.2 (by decide)
    · rintro rfl
      exact hwhole.2 (by decide)

end Source

end WordC
