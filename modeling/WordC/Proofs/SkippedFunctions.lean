import Mathlib.Data.List.Infix
import WordC.Proofs.Prototypes

/-!
# Functions with a broken header

A function that is rejected before its body begins is skipped as a whole: the rest of its header, and
the body with everything nested in it, semicolons included. Braces are counted up to the one that closes
the body, so the next object is neither swallowed nor begun in the middle.

* `rise`, `Balanced`: how many more braces open than close, and token lists in which they match.
* `BodyAhead`: the rest of a header, a body in braces, and what comes behind it.
* `skipBody_balanced`: the search for the closing brace, with any number of braces open.
* `rejected_header`: where reading goes on.
-/
namespace WordC.Parse

/-! ## Braces -/

/-- How many more braces open than close. -/
def rise (ts : List Token) : Int := ts.countP (·.is "\x7b") - ts.countP (·.is "\x7d")

theorem rise_nil : rise [] = 0 := rfl

theorem rise_opening {t : Token} (h : t.is "\x7b") (ts : List Token) :
    rise (t :: ts) = rise ts + 1 := by
  have hclose : t.is "\x7d" = false := by rw [Token.is_of_is h]; decide
  simp only [rise, List.countP_cons, h, hclose, if_true, if_false, Bool.false_eq_true]
  omega

theorem rise_closing {t : Token} (h : t.is "\x7d") (ts : List Token) :
    rise (t :: ts) = rise ts - 1 := by
  have hopen : t.is "\x7b" = false := by rw [Token.is_of_is h]; decide
  simp only [rise, List.countP_cons, h, hopen, if_true, if_false, Bool.false_eq_true]
  omega

theorem rise_other {t : Token} (hopen : t.is "\x7b" = false) (hclose : t.is "\x7d" = false)
    (ts : List Token) : rise (t :: ts) = rise ts := by
  simp [rise, hopen, hclose]

/-- The braces match: no prefix closes more than it opens, and nothing is open at the end. -/
structure Balanced (ts : List Token) : Prop where
  nonneg : ∀ front, front <+: ts → 0 ≤ rise front
  level : rise ts = 0

instance (ts : List Token) : Decidable (Balanced ts) :=
  decidable_of_iff ((∀ front ∈ ts.inits, 0 ≤ rise front) ∧ rise ts = 0)
    ⟨fun h => ⟨fun front hfront => h.1 front ((List.mem_inits _ _).2 hfront), h.2⟩,
      fun h => ⟨fun front hfront => h.nonneg front ((List.mem_inits _ _).1 hfront), h.level⟩⟩

/-! ## Skipping a body -/

section

variable {front body rest : List Token} {opening closing : Token}

/-- With `depth` braces open, skipping ends behind the brace that closes the outermost of them. What is
asked of the prefixes is that the outermost one stays open in front of it. -/
theorem skipBody_balanced (hcloses : closing.is "\x7d") : ∀ {depth : Int},
    (∀ front, front <+: body → 1 ≤ depth + rise front) → depth + rise body = 1 →
    skipBody true depth (body ++ closing :: rest) = rest := by
  induction body with
  | nil =>
    intro depth _ hlevel
    have hopen : closing.is "\x7b" = false := by rw [Token.is_of_is hcloses]; decide
    rw [rise_nil] at hlevel
    have hlast : depth - 1 ≤ 0 := by omega
    simp [skipBody, hcloses, hopen, hlast]
  | cons t body ih =>
    intro depth hopen hlevel
    have hafter : ∀ front, front <+: body → 1 ≤ depth + rise (t :: front) := fun front hfront =>
      hopen (t :: front) ((List.prefix_cons_inj t).2 hfront)
    rw [List.cons_append, skipBody]
    by_cases hopens : t.is "\x7b"
    · simp only [rise_opening hopens] at hafter hlevel
      rw [if_pos hopens]
      exact ih (fun front hfront => by have := hafter front hfront; omega) (by omega)
    rw [if_neg hopens]
    by_cases hcloses : t.is "\x7d"
    · simp only [rise_closing hcloses] at hafter hlevel
      have hinner : ¬depth - 1 ≤ 0 := by
        have := hafter [] List.nil_prefix
        rw [rise_nil] at this
        omega
      simp only [hcloses, if_true, Bool.true_and, decide_eq_true_eq, if_neg hinner]
      exact ih (fun front hfront => by have := hafter front hfront; omega) (by omega)
    · have hother (ts : List Token) : rise (t :: ts) = rise ts :=
        rise_other (eq_false_of_ne_true hopens) (eq_false_of_ne_true hcloses) ts
      simp only [hother] at hafter hlevel
      simp only [hcloses, Bool.false_eq_true, if_false, Bool.not_true, Bool.false_and]
      exact ih hafter hlevel

/-- The rest of a header without a semicolon, a body in braces whose own braces match, and `rest` behind
it. -/
structure BodyAhead (ts front : List Token) (opening : Token) (body : List Token) (closing : Token)
    (rest : List Token) : Prop where
  tokens : ts = front ++ opening :: (body ++ closing :: rest)
  plain : ∀ t ∈ front, t.is ";" = false ∧ t.is "\x7b" = false ∧ t.is "\x7d" = false
  opens : opening.is "\x7b"
  balanced : Balanced body
  closes : closing.is "\x7d"

/-- Where no body has begun yet, it is skipped with what is left of the header. -/
theorem BodyAhead.skipBody_eq {ts : List Token} (h : BodyAhead ts front opening body closing rest) :
    skipBody false 0 ts = rest := by
  rw [h.tokens, skipBody_plain h.plain, skipBody, if_pos h.opens]
  refine skipBody_balanced h.closes (fun front hfront => ?_) ?_
  · have := h.balanced.nonneg front hfront
    omega
  · rw [h.balanced.level]
    rfl

/-- **A function with a broken header is skipped exactly.** Let a function be rejected before it read
any brace, and let the rest of its header and its body be ahead. Then the rejection is recorded, and
reading goes on right behind the body; nothing else changes. In the rounds of reading objects, that is
where the next one starts. -/
theorem rejected_header {s s₁ : State} {r : Rejection}
    (hrejected : Parser.function.run s = .rejected r s₁)
    (hread : ∀ t ∈ consumed s.rest s₁.rest, t.is "\x7b" = false ∧ t.is "\x7d" = false)
    (h : BodyAhead s₁.rest front opening body closing rest) :
    skipFunction s.rest s₁.rest = rest ∧
    (Parser.recovering Parser.function skipFunction).run s =
      .ok () { s₁ with issues := s₁.issues ++ [.rejected r], rest := rest } ∧
    ∀ before, startsFunction before.rest → s = { before with scope := .empty } →
      Round before { s₁ with issues := s₁.issues ++ [.rejected r], rest := rest } := by
  have hskip : skipFunction s.rest s₁.rest = rest :=
    (skipFunction_unopened hread).trans h.skipBody_eq
  have hrun : (Parser.recovering Parser.function skipFunction).run s =
      .ok () { s₁ with issues := s₁.issues ++ [.rejected r], rest := rest } := by
    rw [recovering_rejected hrejected, hskip]
  refine ⟨hskip, hrun, fun before hstarts hs => ⟨?_, ?_⟩⟩
  · intro hnil
    rw [hnil] at hstarts
    cases hstarts
  · unfold Parser.object
    rw [Parser.run_modify_bind, Parser.run_get_bind, if_pos hstarts, ← hs]
    exact hrun

end

open Surface in
/-- The tokens of `) { ; { a = 1; } } int y;`, which are left when the second parameter of
`int f(int a, int a)` is rejected. -/
def behindParameters : List Token :=
  [mark ")", mark "\x7b", mark ";", mark "\x7b", ident "a", mark "=", literal 1, mark ";",
    mark "\x7d", mark "\x7d", keyword "int", ident "y", mark ";"]

open Surface in
/-- A state in front of such a function. -/
def beforeBrokenHeader : State :=
  State.ofTokens ([keyword "int", ident "f", mark "(", keyword "int", ident "a", mark ",",
    keyword "int", ident "a"] ++ behindParameters)

/-- The body is skipped with the block and the semicolons in it, and `int y;` is read next. -/
theorem brokenHeader_skipped :
    ∃ r s₁, Parser.function.run beforeBrokenHeader = .rejected r s₁ ∧ s₁.rest = behindParameters ∧
      Round beforeBrokenHeader
        { s₁ with issues := s₁.issues ++ [.rejected r], rest := behindParameters.drop 10 } := by
  have hrun : ∃ r s₁, Parser.function.run beforeBrokenHeader = .rejected r s₁ ∧
      s₁.rest = behindParameters := ⟨_, _, rfl, rfl⟩
  obtain ⟨r, s₁, hrejected, hrest⟩ := hrun
  have hread : ∀ t ∈ consumed beforeBrokenHeader.rest s₁.rest,
      t.is "\x7b" = false ∧ t.is "\x7d" = false := by
    rw [hrest]
    decide
  have hahead : BodyAhead s₁.rest [Surface.mark ")"] (Surface.mark "\x7b")
      (behindParameters.extract 2 9) (Surface.mark "\x7d") (behindParameters.drop 10) := by
    rw [hrest]
    exact ⟨by decide, by decide, by decide, by decide, by decide⟩
  obtain ⟨-, -, hround⟩ := rejected_header hrejected hread hahead
  exact ⟨r, s₁, hrejected, hrest, hround beforeBrokenHeader (by decide) rfl⟩

end WordC.Parse
