import WordC.Proofs.ReadStatement
import WordC.Proofs.Parameters

/-!
# Reading whole texts under a discipline

Functions and global variables change what is known of the whole text, so the states between them no
longer grow in the sense of `State.Grows`. What is kept is the discipline, and that tokens are only
dropped from the front.

* `Discipline.Keeps`: how a reader of objects may end.
* `object_keeps`: every object, accepted or not, takes at least one token.
* `Discipline.parse_keeps`: reading any token list comes to its end in a good state, in which only the
  calls that wait are still to be checked, or with a fault that may happen.
-/
namespace WordC.Parse

theorem skipBody_suffix (ts : List Token) : ∀ opened depth, skipBody opened depth ts <:+ ts := by
  induction ts with
  | nil => intro opened depth; exact List.suffix_refl _
  | cons t ts ih =>
    intro opened depth
    have htail := List.suffix_cons t ts
    unfold skipBody
    split
    · exact (ih _ _).trans htail
    · split
      · split
        · exact htail
        · exact (ih _ _).trans htail
      · split
        · exact htail
        · exact (ih _ _).trans htail

theorem skipFunction_suffix (start rest : List Token) : skipFunction start rest <:+ rest :=
  skipBody_suffix rest _ _

namespace Discipline

/-- How a reader may end that leaves only tokens of `rest`. -/
def Keeps {α : Type} (D : Discipline) (rest : List Token) (post : α → State → Prop) :
    Outcome α → Prop
  | .ok a s' => D.Inv s' ∧ s'.rest <:+ rest ∧ post a s'
  | .rejected _ s' => D.Inv s' ∧ s'.rest <:+ rest
  | .faulted f => D.Allowed f

section

variable {D : Discipline} {s : State} {rest : List Token}

theorem Yields.keeps {α : Type} {q : α → State → Prop} {o : Outcome α} (h : D.Yields s q o)
    (hrest : s.rest <:+ rest) : D.Keeps rest (fun a s' => s.Grows s' ∧ q a s') o := by
  cases o with
  | ok a s' => exact ⟨h.1, h.2.1.rest.trans hrest, h.2⟩
  | rejected r s' => exact ⟨h.1, h.2.rest.trans hrest⟩
  | faulted fault => exact h

namespace Keeps

variable {α β : Type} {p : Parser α} {f : α → Parser β} {q : α → State → Prop}
  {post : β → State → Prop}

theorem mono {o : Outcome β} {rest' : List Token} {post' : β → State → Prop}
    (h : D.Keeps rest post o) (hrest : rest <:+ rest')
    (hpost : ∀ b s', D.Inv s' → s'.rest <:+ rest → post b s' → post' b s') :
    D.Keeps rest' post' o := by
  cases o with
  | ok b s' => exact ⟨h.1, h.2.1.trans hrest, hpost b s' h.1 h.2.1 h.2.2⟩
  | rejected r s' => exact ⟨h.1, h.2.trans hrest⟩
  | faulted fault => exact h

theorem bind (hp : D.Keeps rest q (p.run s))
    (hf : ∀ a s', D.Inv s' → s'.rest <:+ rest → q a s' → D.Keeps rest post ((f a).run s')) :
    D.Keeps rest post ((p >>= f).run s) := by
  rw [Parser.run_bind]
  cases hrun : p.run s with
  | ok a s' =>
    rw [hrun] at hp
    exact hf a s' hp.1 hp.2.1 hp.2.2
  | rejected r s' => rw [hrun] at hp; exact hp
  | faulted fault => rw [hrun] at hp; exact hp

/-- What a reader ended with can be remembered. -/
theorem remember (h : D.Keeps rest q (p.run s)) :
    D.Keeps rest (fun a s' => p.run s = .ok a s' ∧ q a s') (p.run s) := by
  cases hrun : p.run s with
  | ok a s' => rw [hrun] at h; exact ⟨h.1, h.2.1, rfl, h.2.2⟩
  | rejected r s' => rw [hrun] at h; exact h
  | faulted fault => rw [hrun] at h; exact h

theorem reject {loc : Loc} {problem : Problem} (hs : D.Inv s) (hrest : s.rest <:+ rest) :
    D.Keeps rest post ((Parser.reject loc problem).run s) :=
  ⟨hs, hrest⟩

theorem acceptElse {text : String} {p q : Parser β} (hs : D.Inv s) (hrest : s.rest <:+ rest)
    (hp : s.current.is text → ∀ s', D.Inv s' → s'.rest <:+ rest → D.Keeps rest post (p.run s'))
    (hq : D.Keeps rest post (q.run s)) :
    D.Keeps rest post ((Parser.accept text >>= fun b => if b = true then p else q).run s) := by
  rw [Parser.run_bind, Parser.run_accept]
  split
  · rename_i hb
    have htail := List.tail_suffix s.rest
    exact hp hb _ (D.read hs htail) (htail.trans hrest)
  · exact hq

end Keeps

/-! ## Functions -/

theorem parameters_yields (budget : Nat) : ∀ s, D.Inv s → s.rest.length + 1 ≤ budget →
    D.Yields s (fun _ _ => True) ((Parser.parameters budget).run s) := by
  induction budget with
  | zero => intro s _ hb; omega
  | succ budget ih =>
    intro s hs hb
    unfold Parser.parameters
    refine Yields.bind (Yields.typeName hs) ?_
    intro base s₁ hs₁ _ h₁
    obtain ⟨hbase, hlen₁⟩ := h₁
    refine Yields.bind (Yields.declarator hs₁ hbase) ?_
    intro d s₂ hs₂ _ h₂
    obtain ⟨hname, hty, hlen₂⟩ := h₂
    refine Yields.bind (Yields.declareLocal hs₂ hname (D.decay hty)) ?_
    intro v s₃ hs₃ _ h₃
    refine Yields.acceptElse hs₃ (fun s₄ hs₄ _ _ => Yields.pure hs₄ trivial) ?_
    refine Yields.bind (Yields.expect "," hs₃) ?_
    intro _ s₄ hs₄ _ hlen₄
    refine Yields.bind (ih s₄ hs₄ (by rw [h₃.2] at hlen₄; omega)) ?_
    intro more s₅ hs₅ _ _
    exact Yields.pure hs₅ trivial

/-- Behind the type that a declaration starts with. -/
theorem typeName_run (h : s.current.is "int") :
    Parser.typeName.run s = .ok .int { s with rest := s.rest.tail } := by
  unfold Parser.typeName Parser.expect
  simp only [Parser.run_bind, Parser.run_accept, h, if_true, Outcome.andThen_ok, Parser.run_pure]

/-- The header of a function, read from its first token on. -/
theorem header_yields (hs : D.Inv s) (h : s.current.is "int") :
    D.Yields { s with rest := s.rest.tail } (fun header _ => D.Name header.name.text)
      (Parser.header.run s) := by
  have hs₁ := D.read hs (List.tail_suffix s.rest)
  unfold Parser.header
  rw [Parser.run_bind, typeName_run h, Outcome.andThen_ok]
  refine Yields.bind (Yields.pointers hs₁ D.int) ?_
  intro result s₂ hs₂ _ _
  refine Yields.bind (Yields.identifier hs₂) ?_
  intro name s₃ hs₃ _ h₃
  refine Yields.bind (Yields.expect "(" hs₃) ?_
  intro _ s₄ hs₄ _ _
  rw [Parser.run_get_bind]
  have hend : ∀ params s', D.Inv s' → D.Yields s' (fun header _ => D.Name header.name.text)
      ((if maxArgs < params.length then Parser.reject name.loc (.tooManyParameters name.text)
        else Pure.pure ⟨name, result, params⟩ : Parser Parser.Header).run s') := by
    intro params s' hs'
    split
    · exact Yields.reject hs'
    · exact Yields.pure hs' h₃.1
  refine Yields.acceptElse hs₄ (fun s₅ hs₅ _ _ => hend [] s₅ hs₅) ?_
  refine Yields.bind (parameters_yields _ s₄ hs₄ (Nat.le_refl _)) ?_
  intro params s₅ hs₅ _ _
  exact hend params s₅ hs₅

theorem prototype_keeps {start : State} {h : Parser.Header} (hstart : D.Inv start)
    (hannounced : Announces start.rest h.name.text h.paramTypes.length) (hs : D.Inv s)
    (hrest : s.rest <:+ rest) (hname : D.Name h.name.text) :
    D.Keeps rest (fun _ _ => True) ((Parser.prototype h).run s) := by
  unfold Parser.prototype
  rw [Parser.run_get_bind]
  split
  · exact Keeps.reject hs hrest
  · rename_i hglobal
    exact ⟨D.declare _ hstart hannounced hs hname (by simpa using hglobal), hrest, trivial⟩

theorem definition_keeps {h : Parser.Header} (hs : D.Inv s) (hrest : s.rest <:+ rest)
    (hname : D.Name h.name.text) (hparams : s.scope.OpensWith h.params) :
    D.Keeps rest (fun _ _ => True) ((Parser.definition h).run s) := by
  unfold Parser.definition
  rw [Parser.run_get_bind]
  split
  · exact Keeps.reject hs hrest
  rename_i hnew
  simp only [Bool.or_eq_true, not_or, Bool.not_eq_true] at hnew
  have hs₁ := D.define h.paramTypes hs hname hnew.1 hnew.2
  rw [Parser.run_modify_bind]
  refine Keeps.bind ((Yields.expect "\x7b" hs₁).keeps hrest) ?_
  intro _ s₂ hs₂ hrest₂ h₂
  obtain ⟨hgrows₂, -⟩ := h₂
  refine Keeps.bind ((Yields.block hs₂).keeps hrest₂) ?_
  intro body s₃ hs₃ hrest₃ h₃
  obtain ⟨hgrows₃, hbody⟩ := h₃
  have hgrows := hgrows₂.trans hgrows₃
  exact ⟨D.defineFunction h.params h.result hs hname hnew.1 hnew.2 hgrows.objects hgrows.signatures
    hs₃ (hparams.mono hgrows.locals) hbody, hrest₃, trivial⟩

theorem current_of_startsFunction (h : startsFunction s.rest) : s.current.is "int" := by
  unfold startsFunction at h
  split at h
  · rename_i t ts hrest
    simp only [Bool.and_eq_true] at h
    simpa [State.current, hrest] using h.1
  · cases h

/-- A function, read from its first token on. -/
theorem function_keeps (hs : D.Inv s) (hscope : s.scope = .empty) (hstart : startsFunction s.rest) :
    D.Keeps s.rest.tail (fun _ _ => True) (Parser.function.run s) := by
  unfold Parser.function
  have hheader := header_yields hs (current_of_startsFunction hstart)
  refine Keeps.bind (hheader.keeps (List.suffix_refl _)).remember ?_
  intro h s₁ hs₁ hrest₁ h₁
  obtain ⟨hrun, -, hname⟩ := h₁
  refine Keeps.acceptElse hs₁ hrest₁ (fun hsemicolon s₂ hs₂ hrest₂ => ?_) ?_
  · refine prototype_keeps hs ⟨hstart, s, h, s₁, rfl, hscope, hrun, hsemicolon, rfl, ?_⟩ hs₂ hrest₂
      hname
    exact (List.length_map _).symm
  · exact definition_keeps hs₁ hrest₁ hname (header_opensWith hscope hrun)

/-! ## Global variables -/

theorem declareGlobal_keeps {d : Parser.Declared} (hs : D.Inv s) (hrest : s.rest <:+ rest)
    (hname : D.Name d.name.text) (hty : D.Shape d.ty) :
    D.Keeps rest (fun _ s' => s'.rest = s.rest) ((Parser.declareGlobal d).run s) := by
  unfold Parser.declareGlobal
  rw [Parser.run_get_bind]
  split
  · exact Keeps.reject hs hrest
  · rename_i hnew
    simp only [Bool.or_eq_true, not_or, Bool.not_eq_true] at hnew
    exact ⟨D.declareGlobal hs hname hty hnew.1 hnew.2, hrest, rfl⟩

theorem globalDeclarators_keeps {base : Ty} (hbase : D.Shape base) (budget : Nat) :
    ∀ s first, D.Inv s → s.rest <:+ rest → s.rest.length + 1 ≤ budget →
    D.Keeps rest (fun _ _ => True) ((Parser.globalDeclarators budget base first).run s) := by
  induction budget with
  | zero => intro s _ _ _ hb; omega
  | succ budget ih =>
    intro s first hs hrest hb
    unfold Parser.globalDeclarators
    refine Keeps.acceptElse hs hrest (fun _ s₁ hs₁ hrest₁ => ⟨hs₁, hrest₁, trivial⟩) ?_
    refine Keeps.bind ((Yields.separator first hs).keeps hrest) ?_
    intro _ s₁ hs₁ hrest₁ h₁
    refine Keeps.bind ((Yields.declarator hs₁ hbase).keeps hrest₁) ?_
    intro d s₂ hs₂ hrest₂ h₂
    obtain ⟨-, hname, hty, hlen₂⟩ := h₂
    rw [Parser.run_sees_bind]
    split
    · exact Keeps.reject hs₂ hrest₂
    · refine Keeps.bind (declareGlobal_keeps hs₂ hrest₂ hname hty) ?_
      intro _ s₃ hs₃ hrest₃ h₃
      have := h₁.1.length_le
      exact ih s₃ false hs₃ hrest₃ (by rw [h₃]; omega)

theorem globals_keeps (hs : D.Inv s) :
    D.Keeps s.rest (fun _ s' => s'.rest.length < s.rest.length) (Parser.globals.run s) := by
  unfold Parser.globals
  refine Keeps.bind ((Yields.typeName hs).keeps (List.suffix_refl _)) ?_
  intro base s₁ hs₁ hrest₁ h₁
  obtain ⟨-, hbase, hlen₁⟩ := h₁
  rw [Parser.run_get_bind]
  refine (globalDeclarators_keeps hbase _ s₁ true hs₁ (List.suffix_refl _) (Nat.le_refl _)).mono
    hrest₁ ?_
  intro _ s₂ _ hrest₂ _
  have := hrest₂.length_le
  omega

/-! ## Whole texts -/

/-- What is skipped behind a rejected object is dropped from the front. -/
theorem recovering_keeps {p : Parser Unit} {skip : List Token → List Token → List Token}
    (hp : D.Keeps rest (fun _ s' => s'.rest.length < s.rest.length) (p.run s))
    (hsuffix : ∀ start rest, skip start rest <:+ rest)
    (hskip : ∀ ts, ts <:+ rest → (skip s.rest ts).length < s.rest.length) :
    D.Keeps rest (fun _ s' => s'.rest.length < s.rest.length)
      ((Parser.recovering p skip).run s) := by
  unfold Parser.recovering
  rw [Parser.run_get_bind]
  cases hrun : p.run s with
  | ok a s' =>
    rw [hrun] at hp
    simpa [Parser.attempt, hrun] using hp
  | rejected r s' =>
    rw [hrun] at hp
    obtain ⟨hs', hrest'⟩ := hp
    have hrec := D.record [.rejected r] hs'
    simp only [Parser.run_bind, Parser.attempt, hrun, Outcome.andThen_ok]
    exact ⟨D.read hrec (hsuffix _ _), (hsuffix _ _).trans hrest', hskip _ hrest'⟩
  | faulted fault =>
    rw [hrun] at hp
    simpa [Parser.attempt, hrun] using hp

/-- Whether it is accepted or rejected, an object takes at least one token. -/
theorem object_keeps (hs : D.Inv s) (hne : s.rest ≠ []) :
    D.Keeps s.rest (fun _ s' => s'.rest.length < s.rest.length) (Parser.object.run s) := by
  unfold Parser.object
  rw [Parser.run_modify_bind, Parser.run_get_bind]
  have hs₁ := D.enter hs
  have hpos := List.length_pos_iff.2 hne
  dsimp only
  split
  · rename_i hstart
    have htail : s.rest.tail.length < s.rest.length := by rw [List.length_tail]; omega
    have hshorter {ts : List Token} (h : ts <:+ s.rest.tail) : ts.length < s.rest.length :=
      Nat.lt_of_le_of_lt h.length_le htail
    have hfunction := function_keeps hs₁ rfl hstart
    refine (recovering_keeps (hfunction.mono (List.suffix_refl _) ?_) skipFunction_suffix ?_).mono
      (List.tail_suffix _) fun _ _ _ _ h => h
    · intro _ s₂ _ hrest₂ _
      exact hshorter hrest₂
    · intro ts hts
      exact hshorter ((skipFunction_suffix _ ts).trans hts)
  · refine recovering_keeps (globals_keeps hs₁) (resume_suffix startsObject) ?_
    intro ts hts
    exact length_resume_lt startsObject hts hne

theorem objects_keeps (budget : Nat) : ∀ s, D.Inv s → s.rest.length + 1 ≤ budget →
    D.Keeps s.rest (fun _ _ => True) ((Parser.objects budget).run s) := by
  induction budget with
  | zero => intro s _ hb; omega
  | succ budget ih =>
    intro s hs hb
    unfold Parser.objects
    rw [Parser.run_atEnd_bind]
    split
    · exact ⟨hs, List.suffix_refl _, trivial⟩
    · rename_i hend
      refine Keeps.bind (object_keeps hs (by simpa using hend)) ?_
      intro _ s₁ hs₁ hrest₁ hlen₁
      exact (ih s₁ hs₁ (by omega)).mono hrest₁ fun _ _ _ _ _ => trivial

end

/-! ## The end of a text -/

theorem recovering_ne_rejected (p : Parser Unit) (skip : List Token → List Token → List Token)
    (s : State) (r : Rejection) (s' : State) : (Parser.recovering p skip).run s ≠ .rejected r s' := by
  unfold Parser.recovering
  rw [Parser.run_get_bind]
  cases hrun : p.run s with
  | ok a s₁ => simp [Parser.attempt, hrun]
  | rejected r s₁ => simp [Parser.attempt, hrun, Parser.report, Parser.record, Parser.modify]
  | faulted fault => simp [Parser.attempt, hrun]

/-- Rejections stay within the object that is read. -/
theorem objects_ne_rejected (budget : Nat) : ∀ (s : State) (r : Rejection) (s' : State),
    (Parser.objects budget).run s ≠ .rejected r s' := by
  induction budget with
  | zero => intro s r s' h; cases h
  | succ budget ih =>
    intro s r s'
    unfold Parser.objects
    rw [Parser.run_atEnd_bind]
    split
    · intro h; cases h
    · rw [Parser.run_bind]
      cases hrun : Parser.object.run s with
      | ok u s₁ => exact ih s₁ r s'
      | rejected r₁ s₁ =>
        unfold Parser.object at hrun
        rw [Parser.run_modify_bind, Parser.run_get_bind] at hrun
        split at hrun
        · exact absurd hrun (recovering_ne_rejected _ _ _ _ _)
        · exact absurd hrun (recovering_ne_rejected _ _ _ _ _)
      | faulted fault => intro h; cases h

end Discipline

/-- What was read when the tokens have come to an end: the calls that wait are checked. -/
def State.parsed (s : State) : Parsed :=
  ⟨⟨s.objects⟩, s.signatures, s.issues ++ s.pending.flatMap (PendingCall.issues s.signatures)⟩

/-- Reading comes to its end in a good state, or with a fault that may happen. -/
theorem Discipline.parse_keeps (D : Discipline) {tokens : List Token}
    (h : D.Inv (.ofTokens tokens)) :
    match parse tokens with
    | .ok parsed => ∃ s, D.Inv s ∧ parsed = s.parsed
    | .error f => D.Allowed f := by
  have hobjects := objects_keeps _ (.ofTokens tokens) h (Nat.le_refl _)
  unfold parse Parser.unit
  rw [Parser.run_get_bind, Parser.run_bind]
  cases hrun : (Parser.objects ((State.ofTokens tokens).rest.length + 1)).run (.ofTokens tokens) with
  | ok u s => rw [hrun] at hobjects; exact ⟨s, hobjects.1, rfl⟩
  | rejected r s => exact absurd hrun (objects_ne_rejected _ _ _ _)
  | faulted f => rw [hrun] at hobjects; exact hobjects

end WordC.Parse
