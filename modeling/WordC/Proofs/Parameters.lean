import WordC.Proofs.Reading

/-!
# The parameters of a function

A header is read in a new scope. Its declarators are only tokens; what enters the scope are its
parameters, one after another, so behind the header the locals are exactly the parameters.

* `Parser.OnlyReads`: the reader drops tokens and changes nothing else.
* `parameters_locals`: the parameters are the new locals, and none of them is an array.
* `header_opensWith`: the scope behind a header opens with the parameters.
-/
namespace WordC.Parse

theorem Scope.OpensWith.mono {scope scope' : Scope} {params : List Local}
    (h : scope.OpensWith params) (hlocals : scope.locals <+: scope'.locals) :
    scope'.OpensWith params :=
  ⟨h.1.trans hlocals, h.2⟩

theorem Ty.isArray_decay (ty : Ty) : ty.decay.isArray = false := by
  cases ty <;> rfl

namespace Parser

variable {α β : Type}

/-- Both parts of a reader that succeeds succeed. -/
theorem bind_ok {p : Parser α} {f : α → Parser β} {s s' : State} {b : β}
    (h : (p >>= f).run s = .ok b s') : ∃ a s₁, p.run s = .ok a s₁ ∧ (f a).run s₁ = .ok b s' := by
  rw [run_bind] at h
  cases hp : p.run s with
  | ok a s₁ => rw [hp] at h; exact ⟨a, s₁, rfl, h⟩
  | rejected r s₁ => rw [hp] at h; cases h
  | faulted f => rw [hp] at h; cases h

/-! ## Readers that only drop tokens -/

/-- What the reader changes, if it succeeds, are the tokens that are left. -/
def OnlyReads (p : Parser α) : Prop := ∀ s a s', p.run s = .ok a s' → s' = { s with rest := s'.rest }

namespace OnlyReads

theorem scope {p : Parser α} (h : OnlyReads p) {s s' : State} {a : α} (hrun : p.run s = .ok a s') :
    s'.scope = s.scope := by
  rw [h s a s' hrun]

theorem pure (a : α) : OnlyReads (Pure.pure a : Parser α) := by
  intro s a' s' h
  cases h
  rfl

theorem bind {p : Parser α} {f : α → Parser β} (hp : OnlyReads p) (hf : ∀ a, OnlyReads (f a)) :
    OnlyReads (p >>= f) := by
  intro s b s' h
  obtain ⟨a, s₁, h₁, h⟩ := bind_ok h
  rw [hf a s₁ b s' h, hp s a s₁ h₁]

theorem ite {c : Prop} [Decidable c] {p q : Parser α} (hp : OnlyReads p) (hq : OnlyReads q) :
    OnlyReads (if c then p else q) := by
  split
  · exact hp
  · exact hq

theorem reject (loc : Loc) (problem : Problem) : OnlyReads (Parser.reject loc problem : Parser α) := by
  intro s a s' h
  cases h

theorem get : OnlyReads Parser.get := by
  intro s a s' h
  cases h
  rfl

theorem current : OnlyReads Parser.current := by
  intro s a s' h
  cases h
  rfl

theorem here : OnlyReads Parser.here := by
  intro s a s' h
  cases h
  rfl

theorem advance : OnlyReads Parser.advance := by
  intro s a s' h
  cases h
  rfl

theorem ofFault (r : Except Fault α) : OnlyReads (Parser.ofFault r) := by
  cases r with
  | ok a => exact pure a
  | error f => intro s a s' h; cases h

theorem accept (text : String) : OnlyReads (Parser.accept text) := by
  intro s b s' h
  rw [run_accept] at h
  split at h <;> cases h <;> rfl

theorem expect (text : String) : OnlyReads (Parser.expect text) :=
  (accept text).bind fun _ => ite (pure ()) (current.bind fun _ => reject _ _)

theorem number : OnlyReads Parser.number := by
  refine current.bind fun t => ite ?_ (reject _ _)
  split
  · exact advance.bind fun _ => pure _
  · exact reject _ _

theorem identifier : OnlyReads Parser.identifier :=
  current.bind fun _ => ite (advance.bind fun _ => pure _) (reject _ _)

theorem typeName : OnlyReads Parser.typeName :=
  (expect "int").bind fun _ => pure _

theorem pointers (ty : Ty) : OnlyReads (Parser.pointers ty) := by
  intro s a s' h
  cases h
  rfl

theorem arrayOf (base : Ty) (len : Int) (loc : Loc) : OnlyReads (Parser.arrayOf base len loc) := by
  refine (ofFault _).bind fun size => ?_
  split
  · exact pure _
  · exact reject _ _

theorem lengths (budget : Nat) (ty : Ty) : OnlyReads (Parser.lengths budget ty) := by
  induction budget with
  | zero => intro s a s' h; cases h
  | succ budget ih =>
    refine (accept "[").bind fun _ => ite ?_ (pure ty)
    refine here.bind fun loc => number.bind fun len => ?_
    exact (expect "]").bind fun _ => ih.bind fun element => arrayOf element len loc

theorem declarator (base : Ty) : OnlyReads (Parser.declarator base) :=
  (pointers base).bind fun _ => identifier.bind fun _ =>
    (get.bind fun _ => lengths _ _).bind fun _ => pure _

end OnlyReads

/-! ## Parameters -/

/-- A new local is the last one of the scope. -/
theorem declareLocal_locals {name : Name} {ty : Ty} {s s' : State} {v : Local}
    (h : (declareLocal name ty).run s = .ok v s') :
    s'.scope.locals = s.scope.locals ++ [v] ∧ v.name = name.text ∧ v.ty = ty := by
  unfold declareLocal at h
  rw [run_get_bind] at h
  dsimp only at h
  split at h
  · cases h
  obtain ⟨size, s₁, h₁, h⟩ := bind_ok h
  have hscope₁ := (OnlyReads.ofFault _).scope h₁
  split at h
  · cases h
  split at h
  · obtain ⟨offset, s₂, h₂, h⟩ := bind_ok h
    have hscope₂ := (OnlyReads.ofFault _).scope h₂
    cases h
    exact ⟨by dsimp only; rw [hscope₂, hscope₁], rfl, rfl⟩
  · cases h

theorem parameters_locals (budget : Nat) : ∀ {s s' : State} {params : List Local},
    (parameters budget).run s = .ok params s' →
    s'.scope.locals = s.scope.locals ++ params ∧ ∀ v ∈ params, v.ty.isArray = false := by
  induction budget with
  | zero => intro s s' params h; cases h
  | succ budget ih =>
    intro s s' params h
    obtain ⟨base, s₁, h₁, h⟩ := bind_ok h
    obtain ⟨d, s₂, h₂, h⟩ := bind_ok h
    obtain ⟨v, s₃, h₃, h⟩ := bind_ok h
    obtain ⟨hlocals, -, hty⟩ := declareLocal_locals h₃
    rw [(OnlyReads.declarator base).scope h₂, OnlyReads.typeName.scope h₁] at hlocals
    have hv : v.ty.isArray = false := by rw [hty]; exact Ty.isArray_decay _
    obtain ⟨last, s₄, h₄, h⟩ := bind_ok h
    rw [← (OnlyReads.accept ")").scope h₄] at hlocals
    split at h
    · cases h
      exact ⟨hlocals, List.forall_mem_singleton.2 hv⟩
    · obtain ⟨u, s₅, h₅, h⟩ := bind_ok h
      obtain ⟨more, s₆, h₆, h⟩ := bind_ok h
      obtain ⟨hmore, hplain⟩ := ih h₆
      rw [(OnlyReads.expect ",").scope h₅] at hmore
      cases h
      refine ⟨?_, List.forall_mem_cons.2 ⟨hv, hplain⟩⟩
      rw [hmore, hlocals, List.append_assoc, List.singleton_append]

/-- What the parentheses of a header hold becomes its parameters, and those are the locals. -/
theorem header_locals {s s' : State} {h : Header} (hrun : header.run s = .ok h s') :
    s'.scope.locals = s.scope.locals ++ h.params ∧ ∀ v ∈ h.params, v.ty.isArray = false := by
  unfold header at hrun
  obtain ⟨base, s₁, h₁, hrun⟩ := bind_ok hrun
  obtain ⟨result, s₂, h₂, hrun⟩ := bind_ok hrun
  obtain ⟨name, s₃, h₃, hrun⟩ := bind_ok hrun
  obtain ⟨_, s₄, h₄, hrun⟩ := bind_ok hrun
  rw [run_get_bind] at hrun
  obtain ⟨closed, s₅, h₅, hrun⟩ := bind_ok hrun
  have hscope : s₅.scope = s.scope := by
    rw [(OnlyReads.accept ")").scope h₅, (OnlyReads.expect "(").scope h₄,
      OnlyReads.identifier.scope h₃, (OnlyReads.pointers base).scope h₂, OnlyReads.typeName.scope h₁]
  have hend : ∀ (params : List Local) (s₆ : State),
      (if maxArgs < params.length then reject name.loc (.tooManyParameters name.text)
        else pure ⟨name, result, params⟩ : Parser Header).run s₆ = .ok h s' →
      s' = s₆ ∧ h.params = params := by
    intro params s₆ hend
    split at hend <;> cases hend
    exact ⟨rfl, rfl⟩
  dsimp only at hrun
  split at hrun
  · obtain ⟨rfl, hparams⟩ := hend [] s₅ hrun
    rw [hparams, hscope]
    exact ⟨(List.append_nil _).symm, List.forall_mem_nil _⟩
  · obtain ⟨params, s₆, h₆, hrun⟩ := bind_ok hrun
    obtain ⟨rfl, hparams⟩ := hend params s₆ hrun
    rw [hparams, ← hscope]
    exact parameters_locals _ h₆

end Parser

/-- Behind a header that is read in a new scope, the scope opens with its parameters. -/
theorem header_opensWith {s s' : State} {h : Parser.Header} (hscope : s.scope = .empty)
    (hrun : Parser.header.run s = .ok h s') : s'.scope.OpensWith h.params := by
  obtain ⟨hlocals, hplain⟩ := Parser.header_locals hrun
  refine ⟨?_, hplain⟩
  rw [hlocals, hscope]
  exact List.prefix_refl _

end WordC.Parse
