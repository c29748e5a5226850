import Mathlib.Computability.Language
import Mathlib.Order.CompletePartialOrder
import WordC.Token

/-!
# The grammar

The rules of the language as data, one pattern for each form, and what it means that tokens follow
them. Nothing here knows how a text is read.

* `Pattern`, `Form.rule`: sequences, choices and repetitions of tokens and of other forms.
* `Matches`: the tokens can be derived from a pattern.
* `Pattern.language`: the token lists that match, with one equation for each way to combine patterns,
  so that facts about patterns are facts about languages.
-/
namespace WordC.Grammar

open Computability

/-! ## Patterns and rules -/

/-- What a rule is about. -/
inductive Form where
  | program
  | function
  | parameters
  | globalDeclaration
  | declarator
  | typeSuffix
  | compound
  | declaration
  | statement
  | expressionStatement
  | expression
  | assign
  | equality
  | relational
  | add
  | mul
  | unary
  | subscripted
  | primary
  | call
  deriving DecidableEq, Repr

/-- The right side of a rule. -/
inductive Pattern where
  | nothing
  /-- The punctuator or keyword spelled so. -/
  | text (spelling : String)
  | ident
  | number
  | form (f : Form)
  | both (first second : Pattern)
  | either (left right : Pattern)
  | many (each : Pattern)
  deriving DecidableEq, Repr

namespace Pattern

/-- One behind the other. -/
def row : List Pattern → Pattern
  | [] => nothing
  | [p] => p
  | p :: ps => both p (row ps)

/-- The first of the patterns or one of the others. -/
def choice (p : Pattern) : List Pattern → Pattern
  | [] => p
  | q :: qs => either p (choice q qs)

def optional (p : Pattern) : Pattern := either p nothing

/-- At least one, with commas between them. -/
def listOf (p : Pattern) : Pattern := both p (many (both (text ",") p))

end Pattern

open Pattern in
/-- The rule of each form. -/
def Form.rule : Form → Pattern
  | program => many (choice (form function) [form globalDeclaration])
  | function =>
    row [text "int", many (text "*"), ident, text "(", optional (form parameters), text ")",
      choice (row [text "\x7b", form compound]) [text ";"]]
  | parameters => listOf (row [text "int", form declarator])
  | globalDeclaration => row [text "int", optional (listOf (form declarator)), text ";"]
  | declarator => row [many (text "*"), ident, form typeSuffix]
  | typeSuffix => optional (row [text "[", number, text "]", form typeSuffix])
  | compound => row [many (choice (form declaration) [form statement]), text "\x7d"]
  | declaration =>
    row [text "int",
      optional (listOf (row [form declarator, optional (row [text "=", form assign])])), text ";"]
  | statement =>
    choice (row [text "return", optional (form expression), text ";"])
      [row [text "if", text "(", form expression, text ")", form statement,
        optional (row [text "else", form statement])],
      row [text "for", text "(", choice (form declaration) [form expressionStatement],
        optional (form expression), text ";", optional (form expression), text ")", form statement],
      row [text "while", text "(", form expression, text ")", form statement],
      row [text "\x7b", form compound],
      form expressionStatement]
  | expressionStatement => row [optional (form expression), text ";"]
  | expression => form assign
  | assign => row [form equality, optional (row [text "=", form assign])]
  | equality =>
    row [form relational,
      many (choice (row [text "==", form relational]) [row [text "!=", form relational]])]
  | relational =>
    row [form add,
      many (choice (row [text "<", form add])
        [row [text "<=", form add], row [text ">", form add], row [text ">=", form add]])]
  | add => row [form mul, many (choice (row [text "+", form mul]) [row [text "-", form mul]])]
  | mul => row [form unary, many (choice (row [text "*", form unary]) [row [text "/", form unary]])]
  | unary =>
    choice (row [choice (text "+") [text "-", text "&", text "*"], form unary]) [form subscripted]
  | subscripted => row [form primary, many (row [text "[", form expression, text "]"])]
  | primary =>
    choice (row [text "(", form expression, text ")"])
      [row [text "sizeof", form unary], form call, ident, number]
  | call => row [ident, text "(", optional (listOf (form assign)), text ")"]

/-! ## Derivations -/

/-- The tokens can be derived from the pattern. -/
inductive Matches : Pattern → List Token → Prop where
  | nothing : Matches .nothing []
  | text {spelling : String} {t : Token} : t.is spelling → Matches (.text spelling) [t]
  | ident {t : Token} : t.kind = .ident → Matches .ident [t]
  | number {t : Token} : t.kind = .num → Matches .number [t]
  | form {f : Form} {ts : List Token} : Matches f.rule ts → Matches (.form f) ts
  | both {p q : Pattern} {ts us : List Token} : Matches p ts → Matches q us →
    Matches (.both p q) (ts ++ us)
  | left {p q : Pattern} {ts : List Token} : Matches p ts → Matches (.either p q) ts
  | right {p q : Pattern} {ts : List Token} : Matches q ts → Matches (.either p q) ts
  | done {p : Pattern} : Matches (.many p) []
  | again {p : Pattern} {ts us : List Token} : Matches p ts → Matches (.many p) us →
    Matches (.many p) (ts ++ us)

/-- The tokens can be derived from the form. -/
def Form.Derives (f : Form) (ts : List Token) : Prop := Matches (.form f) ts

/-- A repetition is a list of pieces, each of which matches. -/
theorem Matches.pieces {p q : Pattern} {ts : List Token} (h : Matches q ts) (hq : q = .many p) :
    ∃ pieces : List (List Token), ts = pieces.flatten ∧ ∀ piece ∈ pieces, Matches p piece := by
  induction h with
  | done => exact ⟨[], rfl, List.forall_mem_nil _⟩
  | again hp _ _ ih =>
    obtain ⟨pieces, rfl, hpieces⟩ := ih hq
    cases hq
    exact ⟨_ :: pieces, rfl, List.forall_mem_cons.2 ⟨hp, hpieces⟩⟩
  | nothing | text | ident | number | form | both | left | right => cases hq

/-! ## Languages -/

/-- The lists of one token that is as it should be. -/
def single (P : Token → Prop) : Language Token := {ts | ∃ t, P t ∧ ts = [t]}

theorem mem_single {P : Token → Prop} {t : Token} (h : P t) : [t] ∈ single P := ⟨t, h, rfl⟩

/-- A single punctuator or keyword. -/
def mark (spelling : String) : Language Token := single fun t => t.is spelling

/-- The token lists that match a pattern. -/
def Pattern.language (p : Pattern) : Language Token := {ts | Matches p ts}

/-- The token lists that can be derived from a form. -/
def Form.language (f : Form) : Language Token := {ts | f.Derives ts}

namespace Pattern

@[simp] theorem language_nothing : nothing.language = 1 := by
  ext ts
  refine ⟨fun h => ?_, fun h => ?_⟩
  · cases h
    rfl
  · rw [Language.mem_one] at h
    rw [h]
    exact Matches.nothing

@[simp] theorem language_text (spelling : String) : (text spelling).language = mark spelling := by
  ext ts
  refine ⟨fun h => ?_, fun h => ?_⟩
  · cases h with
    | text ht => exact mem_single ht
  · obtain ⟨t, ht, rfl⟩ := h
    exact Matches.text ht

@[simp] theorem language_ident : ident.language = single fun t => t.kind = .ident := by
  ext ts
  refine ⟨fun h => ?_, fun h => ?_⟩
  · cases h with
    | ident ht => exact mem_single ht
  · obtain ⟨t, ht, rfl⟩ := h
    exact Matches.ident ht

@[simp] theorem language_number : number.language = single fun t => t.kind = .num := by
  ext ts
  refine ⟨fun h => ?_, fun h => ?_⟩
  · cases h with
    | number ht => exact mem_single ht
  · obtain ⟨t, ht, rfl⟩ := h
    exact Matches.number ht

@[simp] theorem language_form (f : Form) : (form f).language = f.language := rfl

@[simp] theorem language_both (p q : Pattern) : (both p q).language = p.language * q.language := by
  ext ts
  rw [Language.mem_mul]
  refine ⟨fun h => ?_, fun h => ?_⟩
  · cases h with
    | both hp hq => exact ⟨_, hp, _, hq, rfl⟩
  · obtain ⟨us, hp, vs, hq, rfl⟩ := h
    exact Matches.both hp hq

@[simp] theorem language_either (p q : Pattern) :
    (either p q).language = p.language + q.language := by
  ext ts
  rw [Language.mem_add]
  refine ⟨fun h => ?_, fun h => ?_⟩
  · cases h with
    | left hp => exact .inl hp
    | right hq => exact .inr hq
  · rcases h with hp | hq
    · exact Matches.left hp
    · exact Matches.right hq

@[simp] theorem language_many (p : Pattern) : (many p).language = p.language∗ := by
  ext ts
  rw [Language.mem_kstar]
  refine ⟨fun h => Matches.pieces h rfl, fun h => ?_⟩
  obtain ⟨pieces, rfl, hpieces⟩ := h
  induction pieces with
  | nil => exact Matches.done
  | cons piece pieces ih =>
    rw [List.forall_mem_cons] at hpieces
    exact Matches.again hpieces.1 (ih hpieces.2)

@[simp] theorem language_optional (p : Pattern) : (optional p).language = p.language + 1 := by
  rw [optional, language_either, language_nothing]

@[simp] theorem language_listOf (p : Pattern) :
    (listOf p).language = p.language * (mark "," * p.language)∗ := by
  rw [listOf, language_both, language_many, language_both, language_text]

/-- Each alternative is within the choice. -/
theorem language_le_choice {p q : Pattern} {qs : List Pattern} (h : p ∈ q :: qs) :
    p.language ≤ (choice q qs).language := by
  induction qs generalizing q with
  | nil => rw [List.mem_singleton.1 h]; exact le_rfl
  | cons r rs ih =>
    rw [choice, language_either]
    rcases List.mem_cons.1 h with rfl | hmem
    · exact le_self_add
    · exact (ih hmem).trans le_add_self

end Pattern

/-- A form has the language of its rule. -/
theorem Form.language_eq (f : Form) : f.language = f.rule.language := by
  ext ts
  refine ⟨fun h => ?_, fun h => Matches.form h⟩
  cases h with
  | form h => exact h

end WordC.Grammar
