import Mathlib.Logic.Relation
import WordC.Proofs.Names
import WordC.Proofs.Safety

/-!
# Names, round after round

A text is read in rounds. Each round takes one object, accepted or rejected, and leaves the objects and
the table of signatures to the next one. Whatever was rejected, and however far it was read, they agree
after each round.

* `Parse.Round`, `Parse.Visits`: one round, and the states between rounds.
* `Parse.Round.keeps`, `Parse.rounds_keep`: what one round keeps, and any number of them.
* `Parse.objects_rounds`: reading objects to the end is going from round to round.
* `Parse.parse_consistent`: what holds between any rounds and of what was read.
-/
namespace WordC.Parse

open Relation (ReflTransGen)

/-! ## What a round keeps -/

/-- There are tokens left, and an object is read from them. -/
def Round (s s' : State) : Prop := s.rest ≠ [] ∧ Parser.object.run s = .ok () s'

/-- The states between two rounds of reading the tokens. -/
def Visits (tokens : List Token) : State → Prop := ReflTransGen Round (.ofTokens tokens)

section

variable {s s' last : State}

theorem Round.keeps (h : Round s s') (hs : Consistent s.objects s.signatures) :
    s'.Named (fun _ => True) s.signatures := by
  have hnamed : s.Named (fun _ => True) s.signatures :=
    ⟨fun _ _ _ => trivial, fun _ _ => trivial, hs, .refl _⟩
  have hobject := Discipline.object_keeps (D := named (fun _ => True) s.signatures) hnamed h.1
  rw [h.2] at hobject
  exact hobject.1

/-- Agreement of the tables and their evolution, over any number of rounds. -/
theorem rounds_keep (h : ReflTransGen Round s s') (hs : Consistent s.objects s.signatures) :
    Consistent s'.objects s'.signatures ∧ s.signatures.Evolves s'.signatures := by
  induction h with
  | refl => exact ⟨hs, .refl _⟩
  | tail _ hround ih =>
    have hnamed := hround.keeps ih.1
    exact ⟨hnamed.consistent, ih.2.trans hnamed.evolved⟩

theorem Visits.consistent {tokens : List Token} (h : Visits tokens s) :
    Consistent s.objects s.signatures :=
  (rounds_keep h (.nil _)).1

/-! ## All rounds -/

theorem objects_round (h : Round s s') (budget : Nat) :
    (Parser.objects (budget + 1)).run s = (Parser.objects budget).run s' := by
  rw [Parser.objects, Parser.run_atEnd_bind, if_neg (by simpa using h.1), Parser.run_bind, h.2]
  rfl

/-- Reading objects comes to the end by rounds. -/
theorem objects_rounds (budget : Nat) : ∀ s, (Parser.objects budget).run s = .ok () last →
    ReflTransGen Round s last ∧ last.rest = [] := by
  induction budget with
  | zero => intro s h; cases h
  | succ budget ih =>
    intro s h
    rw [Parser.objects, Parser.run_atEnd_bind] at h
    split at h
    · rename_i hend
      cases h
      exact ⟨.refl, by simpa using hend⟩
    · rename_i hend
      rw [Parser.run_bind] at h
      cases hrun : Parser.object.run s with
      | ok u s' =>
        rw [hrun] at h
        obtain ⟨hrounds, hlast⟩ := ih s' h
        exact ⟨.head ⟨by simpa using hend, hrun⟩ hrounds, hlast⟩
      | rejected r s' => rw [hrun] at h; cases h
      | faulted f => rw [hrun] at h; cases h

/-- From every state between rounds, reading goes on to the same end. -/
theorem objects_of_rounds (h : ReflTransGen Round s s') :
    ∀ budget, (Parser.objects budget).run s = .ok () last →
      ∃ budget', (Parser.objects budget').run s' = .ok () last := by
  induction h using ReflTransGen.head_induction_on with
  | refl => exact fun budget hlast => ⟨budget, hlast⟩
  | head hround _ ih =>
    intro budget hlast
    cases budget with
    | zero => cases hlast
    | succ budget => exact ih budget (objects_round hround budget ▸ hlast)

end

/-- What was read is what there is after the last round. -/
theorem parse_last {tokens : List Token} {parsed : Parsed} (h : parse tokens = .ok parsed) :
    ∃ budget last, (Parser.objects budget).run (.ofTokens tokens) = .ok () last ∧
      parsed = last.parsed := by
  unfold parse Parser.unit at h
  rw [Parser.run_get_bind, Parser.run_bind] at h
  cases hrun : (Parser.objects ((State.ofTokens tokens).rest.length + 1)).run (.ofTokens tokens) with
  | ok u last =>
    rw [hrun] at h
    cases h
    exact ⟨_, last, hrun, rfl⟩
  | rejected r s => exact absurd hrun (Discipline.objects_ne_rejected _ _ _ _)
  | faulted f => rw [hrun] at h; cases h

/-- **The tables of names stay consistent.** If reading a token list ends without a fault, it goes from
round to round to a state with no tokens left, and what is there is returned. In every state on the
way, whatever was rejected before, objects have different names, functions among them are known as
defined with the types of their parameters, and global variables are not known as functions. From any
such state to any later one, names stay known, and with the same parameters unless a definition took
the place of announcements. -/
theorem parse_consistent {tokens : List Token} {parsed : Parsed} (h : parse tokens = .ok parsed) :
    ∃ last, Visits tokens last ∧ last.rest = [] ∧
      parsed.program.objects = last.objects ∧ parsed.signatures = last.signatures ∧
      Consistent parsed.program.objects parsed.signatures ∧
      ∀ s, Visits tokens s →
        ReflTransGen Round s last ∧ Consistent s.objects s.signatures ∧
        ∀ s', ReflTransGen Round s s' → s.signatures.Evolves s'.signatures := by
  obtain ⟨budget, last, hlast, rfl⟩ := parse_last h
  obtain ⟨hrounds, hend⟩ := objects_rounds budget _ hlast
  refine ⟨last, hrounds, hend, rfl, rfl, Visits.consistent hrounds, fun s hs => ?_⟩
  obtain ⟨budget', hlast'⟩ := objects_of_rounds hs budget hlast
  exact ⟨(objects_rounds budget' s hlast').1, hs.consistent,
    fun s' hs' => (rounds_keep hs' hs.consistent).2⟩

/-- A prototype and a definition that disagree, and each name once more as something else. -/
def clashing : String :=
  "int f(int a); int x; int f(int *b, int c) { return x; } int f; int x(int d); int x[2]; int f() {}"

theorem parse_clashing_consistent :
    ∃ parsed, parse (Source.tokenize clashing).tokens = .ok parsed ∧
      Consistent parsed.program.objects parsed.signatures := by
  obtain ⟨parsed, hparsed, -⟩ := parse_sound (Source.nonnegative_tokenize clashing)
  obtain ⟨last, -, -, -, -, hconsistent, -⟩ := parse_consistent hparsed
  exact ⟨parsed, hparsed, hconsistent⟩

end WordC.Parse
