import WordC.Proofs.ReaderSteps

/-!
# Readers along a relation

Many facts about readers say how the state behind a reader stands to the state before it, no matter
whether there is a result or a rejection. Where such a relation holds from each step to the next, it is
enough to look at the steps.

* `Course`: a relation of states that goes on from step to step, and to which reading a token keeps
  that is no semicolon.
* `Parser.Along`: a reader that keeps to a relation, with one rule for each way readers are put
  together.
-/
namespace WordC.Parse

/-- A relation of an earlier and a later state that holds while tokens other than semicolons are
read. -/
class Course (R : State → State → Prop) : Prop where
  refl (s : State) : R s s
  trans {s s' s'' : State} : R s s' → R s' s'' → R s s''
  advance {s : State} : s.current.is ";" = false → R s { s with rest := s.rest.tail }

/-- If the outcome is a state, it is in the relation to `s`. -/
def Outcome.Along {α : Type} (R : State → State → Prop) (s : State) : Outcome α → Prop
  | .ok _ s' => R s s'
  | .rejected _ s' => R s s'
  | .faulted _ => True

namespace Parser

variable {α β : Type} {R : State → State → Prop} {p q : Parser α} {f : α → Parser β}

/-- From every state, the reader keeps to the relation. -/
def Along (R : State → State → Prop) (p : Parser α) : Prop := ∀ s, (p.run s).Along R s

namespace Along

theorem ok (h : p.Along R) {s s' : State} {a : α} (hrun : p.run s = .ok a s') : R s s' := by
  have hs := h s
  rwa [hrun] at hs

theorem rejected (h : p.Along R) {s s' : State} {r : Rejection} (hrun : p.run s = .rejected r s') :
    R s s' := by
  have hs := h s
  rwa [hrun] at hs

theorem ite {c : Prop} [Decidable c] (hp : p.Along R) (hq : q.Along R) :
    (if c then p else q).Along R := by
  split
  · exact hp
  · exact hq

end Along

variable [Course R]

/-- What a reader does and what comes behind it, from one state. -/
theorem along_bind {s : State} (hp : (p.run s).Along R s)
    (hf : ∀ a s', p.run s = .ok a s' → ((f a).run s').Along R s') : ((p >>= f).run s).Along R s := by
  rw [run_bind]
  cases hrun : p.run s with
  | ok a s₁ =>
    rw [hrun] at hp
    have ha := hf a s₁ hrun
    rw [Outcome.andThen_ok]
    cases hrun' : (f a).run s₁ with
    | ok b s₂ => rw [hrun'] at ha; exact Course.trans hp ha
    | rejected r s₂ => rw [hrun'] at ha; exact Course.trans hp ha
    | faulted fault => trivial
  | rejected r s₁ => rw [hrun] at hp; exact hp
  | faulted fault => trivial

/-- A choice by the next token; the second reader goes on where the first one would. -/
theorem along_acceptElse {text : String} {s : State} (h : (text == ";") = false) (hp : p.Along R)
    (hq : (q.run s).Along R s) :
    ((accept text >>= fun b => if b = true then p else q).run s).Along R s := by
  by_cases htext : s.current.is text
  · have hplain : s.current.is ";" = false := by rw [Token.is_of_is htext]; exact h
    rw [run_bind, run_accept, if_pos htext]
    exact along_bind (p := advance) (f := fun _ => p) (Course.advance hplain) fun _ s' _ => hp s'
  · rw [run_bind, run_accept, if_neg htext]
    exact hq

/-- Going past a token that is known. -/
theorem along_advance {s : State} (h : s.current.is ";" = false) : (advance.run s).Along R s :=
  Course.advance h

namespace Along

theorem pure (a : α) : (Pure.pure a : Parser α).Along R := fun s => Course.refl s

theorem reject (loc : Loc) (problem : Problem) : (Parser.reject loc problem : Parser α).Along R :=
  fun s => Course.refl s

theorem bind (hp : p.Along R) (hf : ∀ a, (f a).Along R) : (p >>= f).Along R :=
  fun s => along_bind (hp s) fun a s' _ => hf a s'

theorem get : Parser.get.Along R := fun s => Course.refl s

theorem current : Parser.current.Along R := fun s => Course.refl s

theorem here : Parser.here.Along R := fun s => Course.refl s

theorem ofRejection (r : Except Rejection α) : (Parser.ofRejection r).Along R := by
  cases r with
  | ok a => exact pure a
  | error r => exact fun s => Course.refl s

theorem ofFault (r : Except Fault α) : (Parser.ofFault r).Along R := by
  cases r with
  | ok a => exact pure a
  | error f => exact fun _ => trivial

theorem ofStop (r : Except Stop α) : (Parser.ofStop r).Along R := by
  rcases r with (r | f) | a
  · exact fun s => Course.refl s
  · exact fun _ => trivial
  · exact pure a

theorem accept {text : String} (h : (text == ";") = false) : (Parser.accept text).Along R := by
  intro s
  rw [run_accept]
  by_cases htext : s.current.is text
  · rw [if_pos htext]
    exact Course.advance (by rw [Token.is_of_is htext]; exact h)
  · rw [if_neg htext]
    exact Course.refl s

/-- A choice by the next token. -/
theorem acceptElse {text : String} (h : (text == ";") = false) (hp : p.Along R) (hq : q.Along R) :
    (Parser.accept text >>= fun b => if b = true then p else q).Along R :=
  fun s => along_acceptElse h hp (hq s)

theorem expect {text : String} (h : (text == ";") = false) : (Parser.expect text).Along R :=
  acceptElse h (pure ()) (current.bind fun _ => reject _ _)

theorem number : Parser.number.Along R := by
  intro s
  unfold Parser.number
  rw [run_current_bind]
  by_cases hkind : s.current.kind = .num
  · rw [if_pos hkind]
    cases hvalue : s.current.value with
    | some value => exact Course.advance (Token.is_eq_false (.inr hkind) _)
    | none => exact Course.refl s
  · rw [if_neg hkind]
    exact Course.refl s

theorem identifier : Parser.identifier.Along R := by
  intro s
  unfold Parser.identifier
  rw [run_current_bind]
  by_cases hkind : s.current.kind = .ident
  · rw [if_pos hkind]
    exact Course.advance (Token.is_eq_false (.inl hkind) _)
  · rw [if_neg hkind]
    exact Course.refl s

end Along

end Parser

end WordC.Parse
