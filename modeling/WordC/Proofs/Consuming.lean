import WordC.Proofs.Grammar
import WordC.Proofs.Parameters

/-!
# The tokens that a reader takes

A reader that goes on behind a rejection drops tokens that follow no rule. But the rejection is
recorded first, so what a reader takes is of interest only where no error is on record.

* `State.Consumes`: if no error is recorded, the tokens taken between two states are in a language.
* `Parser.Consumes`: the same of a reader, with one rule for each way readers are put together. The
  empty language stands for a reader that cannot end without an error.
* `Declarator`: a declarator as it is written, and the type it declares.
-/
namespace WordC.Parse

open Grammar Computability

/-! ## Tokens taken between two states -/

/-- No error is recorded. -/
def State.Clean (s : State) : Prop := ∀ issue ∈ s.issues, issue.isFatal = false

/-- If no error is recorded up to `s'`, then there was none before, no object came in between, and the
tokens taken are in the language. -/
def State.Consumes (s : State) (L : Language Token) (s' : State) : Prop :=
  s'.Clean → s.Clean ∧ s'.objects = s.objects ∧ ∃ front ∈ L, s.rest = front ++ s'.rest

namespace State

variable {s s' s'' : State} {L M : Language Token}

theorem Clean.of_issues (h : s'.Clean) (hissues : s.issues <+: s'.issues) : s.Clean :=
  fun issue hissue => h issue (hissues.subset hissue)

theorem Consumes.refl (s : State) : s.Consumes 1 s :=
  fun h => ⟨h, rfl, [], Language.nil_mem_one, rfl⟩

theorem Consumes.trans (h : s.Consumes L s') (h' : s'.Consumes M s'') : s.Consumes (L * M) s'' := by
  intro hclean
  obtain ⟨hclean', hobjects', back, hback, hrest'⟩ := h' hclean
  obtain ⟨hclean, hobjects, front, hfront, hrest⟩ := h hclean'
  refine ⟨hclean, hobjects'.trans hobjects, front ++ back, Language.append_mem_mul hfront hback, ?_⟩
  rw [hrest, hrest', List.append_assoc]

theorem Consumes.mono (h : s.Consumes L s') (hle : L ≤ M) : s.Consumes M s' := by
  intro hclean
  obtain ⟨hclean, hobjects, front, hfront, hrest⟩ := h hclean
  exact ⟨hclean, hobjects, front, hle hfront, hrest⟩

/-- Going past one token. -/
theorem Consumes.next {P : Token → Prop} {t : Token} {ts : List Token} (hrest : s.rest = t :: ts)
    (h : P t) : s.Consumes (single P) { s with rest := s.rest.tail } :=
  fun hclean => ⟨hclean, rfl, [t], mem_single h, by simp [hrest]⟩

/-- A state that differs only in what no rule looks at. -/
theorem Consumes.beside (hrest : s'.rest = s.rest) (hobjects : s'.objects = s.objects)
    (hissues : s.issues <+: s'.issues) : s.Consumes 1 s' :=
  fun hclean => ⟨hclean.of_issues hissues, hobjects, [], Language.nil_mem_one, hrest.symm⟩

end State

/-! ## Readers -/

namespace Parser

variable {α β : Type} {s : State} {L M : Language Token} {p : Parser α} {f : α → Parser β}

/-- Where the reader has a result, the tokens it took are in the language. -/
def Consumes (s : State) (L : Language Token) (p : Parser α) : Prop :=
  ∀ a s', p.run s = .ok a s' → s.Consumes L s'

namespace Consumes

theorem mono (h : Consumes s L p) (hle : L ≤ M) : Consumes s M p :=
  fun a s' hrun => (h a s' hrun).mono hle

theorem pure (a : α) : Consumes s 1 (Pure.pure a : Parser α) := by
  intro a' s' h
  cases h
  exact .refl s

theorem reject (loc : Loc) (problem : Problem) : Consumes s L (Parser.reject loc problem : Parser α) := by
  intro a s' h
  cases h

theorem bind (hp : Consumes s L p) (hf : ∀ a s', Consumes s' M (f a)) :
    Consumes s (L * M) (p >>= f) := by
  intro b s' h
  obtain ⟨a, s₁, h₁, h⟩ := bind_ok h
  exact (hp a s₁ h₁).trans (hf a s₁ b s' h)

/-- What follows takes nothing. -/
theorem andNothing (hp : Consumes s L p) (hf : ∀ a s', Consumes s' 1 (f a)) :
    Consumes s L (p >>= f) :=
  (hp.bind hf).mono (mul_one L).le

/-- What goes before takes nothing. -/
theorem afterNothing (hp : Consumes s 1 p) (hf : ∀ a s', Consumes s' M (f a)) :
    Consumes s M (p >>= f) :=
  (hp.bind hf).mono (one_mul M).le

theorem get {f : State → Parser β} (h : Consumes s L (f s)) : Consumes s L (Parser.get >>= f) := h

theorem current {f : Token → Parser β} (h : Consumes s L (f s.current)) :
    Consumes s L (Parser.current >>= f) := h

theorem here {f : Loc → Parser β} (h : Consumes s L (f s.current.loc)) :
    Consumes s L (Parser.here >>= f) := h

theorem sees {text : String} {f : Bool → Parser β} (h : Consumes s L (f (s.current.is text))) :
    Consumes s L (Parser.sees text >>= f) := h

theorem atEnd {f : Bool → Parser β} (h : Consumes s L (f s.rest.isEmpty)) :
    Consumes s L (Parser.atEnd >>= f) := h

theorem ofRejection (r : Except Rejection α) : Consumes s 1 (Parser.ofRejection r) := by
  cases r with
  | ok a => exact pure a
  | error r => intro a s' h; cases h

theorem ofFault (r : Except Fault α) : Consumes s 1 (Parser.ofFault r) := by
  cases r with
  | ok a => exact pure a
  | error f => intro a s' h; cases h

theorem ofStop (r : Except Stop α) : Consumes s 1 (Parser.ofStop r) := by
  rcases r with (r | f) | a
  · intro a s' h; cases h
  · intro a s' h; cases h
  · exact pure a

theorem advance {P : Token → Prop} {ts : List Token} (hrest : s.rest = s.current :: ts)
    (h : P s.current) : Consumes s (single P) Parser.advance := by
  intro a s' hrun
  cases hrun
  exact .next hrest h

theorem record (issues : List Issue) : Consumes s 1 (Parser.record issues) := by
  intro a s' h
  cases h
  exact .beside rfl rfl (List.prefix_append _ _)

/-- Behind a rejection that is recorded, an error is on record. -/
theorem report (r : Rejection) : Consumes s 0 (Parser.report r) := by
  intro a s' h hclean
  cases h
  have hfatal := hclean (.rejected r) (List.mem_append_right _ (List.mem_singleton_self _))
  cases hfatal

/-- A choice by the next token. -/
theorem acceptElse {text : String} {p q : Parser β} (hp : ∀ s', Consumes s' L p)
    (hq : Consumes s M q) :
    Consumes s (mark text * L + M) (Parser.accept text >>= fun b => if b = true then p else q) := by
  intro b s' h
  rw [run_bind, run_accept] at h
  split at h
  · rename_i his
    obtain ⟨ts, hrest⟩ := State.rest_of_is his
    have hmark : s.Consumes (mark text) { s with rest := s.rest.tail } := .next hrest his
    exact (hmark.trans (hp _ b s' h)).mono le_self_add
  · exact (hq b s' h).mono le_add_self

theorem expect (text : String) : Consumes s (mark text) (Parser.expect text) := by
  have h : Consumes s (mark text * 1 + 0) (Parser.expect text) :=
    acceptElse (fun _ => pure ()) (current (reject _ _))
  exact h.mono (by rw [mul_one, add_zero])

/-- Going on behind a rejection is possible only with an error on record. -/
theorem attempt {f : Except Rejection α → Parser β} (hp : Consumes s L p)
    (hok : ∀ a s', Consumes s' M (f (.ok a))) (herror : ∀ r s', Consumes s' 0 (f (.error r))) :
    Consumes s (L * M) (p.attempt >>= f) := by
  intro b s' h
  obtain ⟨result, s₁, h₁, h⟩ := bind_ok h
  unfold Parser.attempt at h₁
  dsimp only at h₁
  split at h₁
  · rename_i a s₂ hrun
    cases h₁
    exact (hp a s₁ hrun).trans (hok a s₁ b s' h)
  · rename_i r s₂ hrun
    cases h₁
    intro hclean
    obtain ⟨_, _, front, hfront, _⟩ := herror r s₁ b s' h hclean
    exact absurd hfront (Language.notMem_zero front)
  · cases h₁

end Consumes

end Parser

/-! ## Declarators -/

/-- A declarator as it is written. -/
structure Declarator where
  stars : Nat
  name : String
  lengths : List Int

/-- An identifier spelled so. -/
def identOf (name : String) : Language Token := single fun t => t.kind = .ident ∧ t.lexeme = name

/-- A number of this value. -/
def numberOf (value : Int) : Language Token := single fun t => t.kind = .num ∧ t.value = some value

/-- Lengths in brackets. -/
def brackets : List Int → Language Token
  | [] => 1
  | len :: lens => mark "[" * (numberOf len * (mark "]" * brackets lens))

namespace Declarator

/-- The tokens that write a declarator. -/
def written (d : Declarator) : Language Token :=
  mark "*" ^ d.stars * (identOf d.name * brackets d.lengths)

/-- The type that a declarator over `base` declares: the first length is the outermost. -/
def ty (d : Declarator) (base : Ty) : Ty :=
  d.lengths.foldr (fun len element => .array element len) (Ty.ptr^[d.stars] base)

end Declarator

theorem identOf_le (name : String) : identOf name ≤ Pattern.ident.language := by
  rintro ts ⟨t, ht, rfl⟩
  exact Matches.ident ht.1

theorem numberOf_le (value : Int) : numberOf value ≤ Pattern.number.language := by
  rintro ts ⟨t, ht, rfl⟩
  exact Matches.number ht.1

theorem brackets_le (lens : List Int) : brackets lens ≤ Form.typeSuffix.language := by
  induction lens with
  | nil =>
    rw [Form.language_eq]
    simp only [Form.rule, Pattern.language_optional]
    exact le_add_self
  | cons len lens ih =>
    rw [Form.language_eq]
    simp only [Form.rule, Pattern.language_optional, Pattern.row, Pattern.language_both,
      Pattern.language_text, Pattern.language_form]
    refine le_trans ?_ le_self_add
    exact mul_le_mul_right (mul_le_mul' (numberOf_le len) (mul_le_mul_right ih _)) _

/-- A written declarator follows its rule. -/
theorem Declarator.written_le (d : Declarator) : d.written ≤ Form.declarator.language := by
  rw [Form.language_eq]
  simp only [Form.rule, Pattern.row, Pattern.language_both, Pattern.language_many,
    Pattern.language_text, Pattern.language_form]
  exact mul_le_mul' pow_le_kstar (mul_le_mul' (identOf_le _) (brackets_le _))

namespace Parser

variable {s s' : State}

theorem number_consumes {value : Int} (h : number.run s = .ok value s') :
    s.Consumes (numberOf value) s' := by
  unfold number at h
  rw [run_current_bind] at h
  split at h
  · rename_i hkind
    obtain ⟨ts, hrest⟩ := State.rest_of_kind_ne (s := s) (by rw [hkind]; decide)
    split at h
    · rename_i v hv
      cases h
      exact .next hrest ⟨hkind, hv⟩
    · cases h
  · cases h

theorem identifier_consumes {name : Name} (h : identifier.run s = .ok name s') :
    s.Consumes (identOf name.text) s' := by
  unfold identifier at h
  rw [run_current_bind] at h
  split at h
  · rename_i hkind
    obtain ⟨ts, hrest⟩ := State.rest_of_kind_ne (s := s) (by rw [hkind]; decide)
    cases h
    exact .next hrest ⟨hkind, rfl⟩
  · cases h

theorem typeName_consumes {ty : Ty} (h : typeName.run s = .ok ty s') :
    s.Consumes (mark "int") s' ∧ ty = .int := by
  obtain ⟨u, s₁, h₁, h⟩ := bind_ok h
  cases h
  exact ⟨Consumes.expect "int" u s' h₁, rfl⟩

theorem pointersFrom_written (ts : List Token) : ∀ ty, ∃ stars, ∃ front ∈ mark "*" ^ stars,
    ts = front ++ (pointersFrom ty ts).2 ∧ (pointersFrom ty ts).1 = Ty.ptr^[stars] ty := by
  induction ts with
  | nil => intro ty; exact ⟨0, [], Language.nil_mem_one, rfl, rfl⟩
  | cons t ts ih =>
    intro ty
    unfold pointersFrom
    split
    · rename_i hstar
      obtain ⟨stars, front, hfront, hts, hty⟩ := ih (.ptr ty)
      refine ⟨stars + 1, t :: front, ?_, ?_, ?_⟩
      · rw [pow_succ']
        exact Language.append_mem_mul (mem_single hstar) hfront
      · rw [List.cons_append, ← hts]
      · rw [hty, Function.iterate_succ_apply]
    · exact ⟨0, [], Language.nil_mem_one, rfl, rfl⟩

theorem pointers_consumes {base ty : Ty} (h : (pointers base).run s = .ok ty s') :
    ∃ stars, s.Consumes (mark "*" ^ stars) s' ∧ ty = Ty.ptr^[stars] base := by
  obtain ⟨stars, front, hfront, hrest, hty⟩ := pointersFrom_written s.rest base
  cases h
  exact ⟨stars, fun hclean => ⟨hclean, rfl, front, hfront, hrest⟩, hty⟩

theorem arrayOf_ok {base ty : Ty} {len : Int} {loc : Loc}
    (h : (arrayOf base len loc).run s = .ok ty s') : s' = s ∧ ty = .array base len := by
  unfold arrayOf at h
  obtain ⟨size, s₁, h₁, h⟩ := bind_ok h
  have hs₁ : s₁ = s := by
    cases hsize : base.size with
    | ok size => rw [hsize] at h₁; cases h₁; rfl
    | error f => rw [hsize] at h₁; cases h₁
  split at h
  · cases h
    exact ⟨hs₁, rfl⟩
  · cases h

theorem lengths_consumes {base : Ty} (budget : Nat) : ∀ {s s' : State} {ty : Ty},
    (lengths budget base).run s = .ok ty s' →
    ∃ lens, s.Consumes (brackets lens) s' ∧
      ty = lens.foldr (fun len element => .array element len) base := by
  induction budget with
  | zero => intro s s' ty h; cases h
  | succ budget ih =>
    intro s s' ty h
    unfold lengths at h
    rw [run_bind, run_accept] at h
    split at h
    · rename_i hopen
      obtain ⟨ts, hrest⟩ := State.rest_of_is hopen
      rw [Outcome.andThen_ok, if_pos rfl, run_here_bind] at h
      obtain ⟨len, s₁, h₁, h⟩ := bind_ok h
      obtain ⟨u, s₂, h₂, h⟩ := bind_ok h
      obtain ⟨element, s₃, h₃, h⟩ := bind_ok h
      obtain ⟨lens, hlens, rfl⟩ := ih h₃
      obtain ⟨rfl, rfl⟩ := arrayOf_ok h
      have hmark : s.Consumes (mark "[") { s with rest := s.rest.tail } := .next hrest hopen
      have hclose := Consumes.expect "]" u s₂ h₂
      exact ⟨len :: lens, hmark.trans ((number_consumes h₁).trans (hclose.trans hlens)), rfl⟩
    · cases h
      exact ⟨[], .refl s, rfl⟩

/-- A declarator that is read is written in its tokens. -/
theorem declarator_consumes {base : Ty} {d : Declared} (h : (declarator base).run s = .ok d s') :
    ∃ w : Declarator, s.Consumes w.written s' ∧ d.name.text = w.name ∧ d.ty = w.ty base := by
  obtain ⟨pointed, s₁, h₁, h⟩ := bind_ok h
  obtain ⟨name, s₂, h₂, h⟩ := bind_ok h
  obtain ⟨ty, s₃, h₃, h⟩ := bind_ok h
  cases h
  unfold suffixes at h₃
  rw [run_get_bind] at h₃
  obtain ⟨stars, hstars, rfl⟩ := pointers_consumes h₁
  obtain ⟨lens, hlens, rfl⟩ := lengths_consumes _ h₃
  exact ⟨⟨stars, name.text, lens⟩, hstars.trans ((identifier_consumes h₂).trans hlens), rfl, rfl⟩

theorem Consumes.declarator (base : Ty) :
    Consumes s Form.declarator.language (Parser.declarator base) := by
  intro d s' h
  obtain ⟨w, hw, -, -⟩ := declarator_consumes h
  exact hw.mono w.written_le

theorem Consumes.typeName : Consumes s (mark "int") Parser.typeName :=
  fun _ _ h => (typeName_consumes h).1

/-- A new local takes no tokens of its own. -/
theorem Consumes.declareLocal (name : Name) (ty : Ty) : Consumes s 1 (Parser.declareLocal name ty) := by
  refine get ?_
  dsimp only
  split
  · exact reject _ _
  refine (ofFault _).afterNothing fun size s₁ => ?_
  split
  · exact reject _ _
  split
  · refine (ofFault _).afterNothing fun offset s₂ => ?_
    intro v s' h
    cases h
    exact .beside rfl rfl (List.prefix_refl _)
  · exact reject _ _

end Parser

end WordC.Parse
