import WordC.Proofs.Derivation
import WordC.Proofs.ReadObjects

/-!
# The outline of a text

A text without errors is a sequence of prototypes, definitions and global declarations, and the
objects of its program can be read off that sequence: none for a prototype, a function for a
definition, a variable for each declarator of a global declaration.

* `Item`, `Item.written`, `Item.Lists`: what stands on the outermost level, the tokens that write it,
  and the objects it stands for.
* `Outlines`: tokens and objects belong together, item by item.
* `Outlines.derives`: what has an outline is a program of the grammar.
* `parse_outlines`: reading that records no error reads a program of the grammar, and returns the
  objects of its outline.
-/
namespace WordC.Parse

open Grammar Computability

/-! ## Items as they are written -/

/-- Each of the languages behind a comma. -/
def commas : List (Language Token) → Language Token
  | [] => 1
  | L :: Ls => mark "," * (L * commas Ls)

/-- The languages with commas between them. -/
def separated : List (Language Token) → Language Token
  | [] => 1
  | L :: Ls => L * commas Ls

theorem commas_le {M : Language Token} {Ls : List (Language Token)} (h : ∀ L ∈ Ls, L ≤ M) :
    commas Ls ≤ (mark "," * M)∗ := by
  induction Ls with
  | nil => exact one_le_kstar
  | cons L Ls ih =>
    rw [List.forall_mem_cons] at h
    rw [commas, ← mul_assoc]
    exact (mul_le_mul' (mul_le_mul_right h.1 _) (ih h.2)).trans mul_kstar_le_kstar

theorem separated_le {M : Language Token} {Ls : List (Language Token)} (h : ∀ L ∈ Ls, L ≤ M) :
    separated Ls ≤ M * (mark "," * M)∗ + 1 := by
  cases Ls with
  | nil => exact le_add_self
  | cons L Ls =>
    rw [List.forall_mem_cons] at h
    exact (mul_le_mul' h.1 (commas_le h.2)).trans le_self_add

/-- What stands in front of the body of a function, as it is written. -/
structure Heading where
  stars : Nat
  name : String
  params : List Declarator

namespace Heading

/-- A parameter as it is written. -/
def param (d : Declarator) : Language Token := mark "int" * d.written

def written (h : Heading) : Language Token :=
  mark "int" * (mark "*" ^ h.stars * (identOf h.name * (mark "(" *
    (separated (h.params.map param) * mark ")"))))

/-- The heading of a function with this name, result and parameters; an array is passed as a
pointer. -/
structure Describes (h : Heading) (name : String) (result : Ty) (params : List Local) : Prop where
  name : name = h.name
  result : result = Ty.ptr^[h.stars] .int
  params : params.map (fun v => (v.name, v.ty)) = h.params.map fun d => (d.name, (d.ty .int).decay)

end Heading

/-- What stands on the outermost level of a text. -/
inductive Item where
  | prototype (h : Heading)
  | definition (h : Heading)
  | globals (ds : List Declarator)

namespace Item

/-- The tokens that write an item. -/
def written : Item → Language Token
  | prototype h => h.written * mark ";"
  | definition h => h.written * (mark "\x7b" * Form.compound.language)
  | globals ds => mark "int" * (separated (ds.map Declarator.written) * mark ";")

/-- The objects an item stands for. -/
def Lists : Item → List Object → Prop
  | prototype _, objects => objects = []
  | definition h, objects => ∃ f result, objects = [.function f] ∧ f.ty = .func result ∧
    h.Describes f.name result f.params
  | globals ds, objects => objects = ds.map fun d => .global ⟨d.name, d.ty .int⟩

end Item

/-- The tokens are items one behind the other, and the objects are what they stand for. -/
inductive Outlines : List Token → List Object → Prop where
  | nil : Outlines [] []
  | cons (item : Item) {ts us : List Token} {listed objects : List Object} : ts ∈ item.written →
    item.Lists listed → Outlines us objects → Outlines (ts ++ us) (listed ++ objects)

/-! ## Items follow the grammar -/

theorem Heading.written_le (h : Heading) {body : Language Token}
    (hbody : body ≤ mark "\x7b" * Form.compound.language + mark ";") :
    h.written * body ≤ Form.function.language := by
  have hparams : separated (h.params.map Heading.param) ≤ Form.parameters.language + 1 := by
    rw [Form.language_eq]
    simp only [Form.rule, Pattern.row, Pattern.language_listOf, Pattern.language_both,
      Pattern.language_text, Pattern.language_form]
    refine separated_le ?_
    simp only [List.forall_mem_map, Heading.param]
    exact fun d _ => mul_le_mul_right d.written_le _
  rw [Form.language_eq]
  simp only [Form.rule, Pattern.row, Pattern.choice, Pattern.language_both, Pattern.language_either,
    Pattern.language_many, Pattern.language_optional, Pattern.language_text, Pattern.language_form,
    Heading.written, mul_assoc]
  refine mul_le_mul_right (mul_le_mul' pow_le_kstar (mul_le_mul' (identOf_le _) ?_)) _
  exact mul_le_mul_right (mul_le_mul' hparams (mul_le_mul_right hbody _)) _

theorem Item.written_le (item : Item) :
    item.written ≤ Form.function.language + Form.globalDeclaration.language := by
  cases item with
  | prototype h => exact (h.written_le le_add_self).trans le_self_add
  | definition h => exact (h.written_le le_self_add).trans le_self_add
  | globals ds =>
    refine le_trans ?_ le_add_self
    rw [Form.language_eq .globalDeclaration]
    simp only [Form.rule, Pattern.row, Pattern.language_both, Pattern.language_optional,
      Pattern.language_listOf, Pattern.language_text, Pattern.language_form]
    refine mul_le_mul_right (mul_le_mul_left (separated_le ?_) _) _
    simp only [List.forall_mem_map]
    exact fun d _ => d.written_le

/-- Tokens that have an outline are a program of the grammar. -/
theorem Outlines.derives {ts : List Token} {objects : List Object} (h : Outlines ts objects) :
    Form.program.Derives ts := by
  have hprogram : Form.program.language =
      (Form.function.language + Form.globalDeclaration.language)∗ := by
    rw [Form.language_eq]
    simp only [Form.rule, Pattern.choice, Pattern.language_many, Pattern.language_either,
      Pattern.language_form]
  show ts ∈ Form.program.language
  rw [hprogram]
  induction h with
  | nil => exact Language.nil_mem_kstar _
  | cons item hts _ _ ih =>
    have hle := mul_kstar_le_kstar (a := Form.function.language + Form.globalDeclaration.language)
    exact hle (Language.append_mem_mul (item.written_le hts) ih)

/-! ## Headings -/

namespace Parser

variable {s s' : State}

/-- Parameters and the parenthesis behind them; the list is not empty. -/
theorem parameters_consumes (budget : Nat) : ∀ {s s' : State} {params : List Local},
    (parameters budget).run s = .ok params s' →
    ∃ (d : Declarator) (ds : List Declarator),
      s.Consumes (separated ((d :: ds).map Heading.param) * mark ")") s' ∧
      params.map (fun v => (v.name, v.ty)) = (d :: ds).map fun d => (d.name, (d.ty .int).decay) := by
  induction budget with
  | zero => intro s s' params h; cases h
  | succ budget ih =>
    intro s s' params h
    obtain ⟨base, s₁, h₁, h⟩ := bind_ok h
    obtain ⟨hint, rfl⟩ := typeName_consumes h₁
    obtain ⟨declared, s₂, h₂, h⟩ := bind_ok h
    obtain ⟨v, s₃, h₃, h⟩ := bind_ok h
    obtain ⟨d, hd, hname, hty⟩ := declarator_consumes h₂
    obtain ⟨-, hvname, hvty⟩ := declareLocal_locals h₃
    have hlocal := Consumes.declareLocal _ _ v s₃ h₃
    have hparam : s.Consumes (Heading.param d) s₃ :=
      ((hint.trans hd).trans hlocal).mono (mul_one _).le
    have hv : (v.name, v.ty) = (d.name, (d.ty .int).decay) := by rw [hvname, hname, hvty, hty]
    rw [run_bind, run_accept] at h
    split at h
    · rename_i hclose
      obtain ⟨ts, hrest⟩ := State.rest_of_is hclose
      cases h
      refine ⟨d, [], ?_, congrArg (· :: []) hv⟩
      have hmark : s₃.Consumes (mark ")") { s₃ with rest := s₃.rest.tail } := .next hrest hclose
      exact (hparam.trans hmark).mono (by rw [List.map_singleton, separated, commas, mul_one])
    · rw [Outcome.andThen_ok, if_neg (by decide)] at h
      obtain ⟨u, s₄, h₄, h⟩ := bind_ok h
      obtain ⟨more, s₅, h₅, h⟩ := bind_ok h
      obtain ⟨e, es, hes, hmore⟩ := ih h₅
      cases h
      refine ⟨d, e :: es, ?_, congrArg₂ (· :: ·) hv hmore⟩
      have hcomma := Consumes.expect "," u s₄ h₄
      refine (hparam.trans (hcomma.trans hes)).mono ?_
      simp only [List.map_cons, separated, commas, mul_assoc, le_refl]

theorem header_consumes {h : Header} (hrun : header.run s = .ok h s') :
    ∃ w : Heading, s.Consumes w.written s' ∧ w.Describes h.name.text h.result h.params := by
  unfold header at hrun
  obtain ⟨base, s₁, h₁, hrun⟩ := bind_ok hrun
  obtain ⟨result, s₂, h₂, hrun⟩ := bind_ok hrun
  obtain ⟨name, s₃, h₃, hrun⟩ := bind_ok hrun
  obtain ⟨u, s₄, h₄, hrun⟩ := bind_ok hrun
  obtain ⟨hint, rfl⟩ := typeName_consumes h₁
  obtain ⟨stars, hstars, rfl⟩ := pointers_consumes h₂
  have hfront := hint.trans (hstars.trans ((identifier_consumes h₃).trans
    (Consumes.expect "(" u s₄ h₄)))
  -- What the parentheses hold is left to be shown; the count of parameters takes no tokens.
  have hend : ∀ (params : List Local) (s₅ : State) (ds : List Declarator),
      s₄.Consumes (separated (ds.map Heading.param) * mark ")") s₅ →
      params.map (fun v => (v.name, v.ty)) = ds.map (fun d => (d.name, (d.ty .int).decay)) →
      (if maxArgs < params.length then reject name.loc (.tooManyParameters name.text)
        else pure ⟨name, Ty.ptr^[stars] .int, params⟩ : Parser Header).run s₅ = .ok h s' →
      ∃ w : Heading, s.Consumes w.written s' ∧ w.Describes h.name.text h.result h.params := by
    intro params s₅ ds hparams hds hend
    split at hend
    · cases hend
    · cases hend
      refine ⟨⟨stars, name.text, ds⟩, (hfront.trans hparams).mono ?_, rfl, rfl, hds⟩
      simp only [Heading.written, mul_assoc, le_refl]
  rw [run_get_bind, run_bind, run_accept] at hrun
  split at hrun
  · rename_i hclose
    obtain ⟨ts, hrest⟩ := State.rest_of_is hclose
    have hmark : s₄.Consumes (mark ")") { s₄ with rest := s₄.rest.tail } := .next hrest hclose
    exact hend [] _ [] (hmark.mono (one_mul _).ge) rfl hrun
  · rw [Outcome.andThen_ok, if_neg (by decide)] at hrun
    obtain ⟨params, s₅, h₅, hrun⟩ := bind_ok hrun
    obtain ⟨d, ds, hds, hparams⟩ := parameters_consumes _ h₅
    exact hend params s₅ (d :: ds) hds hparams hrun

end Parser

/-! ## Objects -/

/-- If no error is recorded up to `s'`, then there was none before, and the tokens taken are an item
whose objects are the new ones. -/
def State.TakesItem (s s' : State) : Prop :=
  s'.Clean → s.Clean ∧ ∃ (item : Item) (listed : List Object), item.Lists listed ∧
    s'.objects = s.objects ++ listed ∧ ∃ front ∈ item.written, s.rest = front ++ s'.rest

namespace Parser

variable {s s' : State}

theorem prototype_consumes {h : Header} {u : Unit} (hrun : (prototype h).run s = .ok u s') :
    s.Consumes 1 s' := by
  unfold prototype at hrun
  rw [run_get_bind] at hrun
  split at hrun
  · cases hrun
  · cases hrun
    exact .beside rfl rfl (List.prefix_refl _)

/-- The body is read, and then the function is added. -/
theorem definition_consumes {h : Header} {u : Unit} (hrun : (definition h).run s = .ok u s') :
    ∃ s₁ locals body size, s.Consumes (mark "\x7b" * Form.compound.language) s₁ ∧
      s' = { s₁ with objects :=
        s₁.objects ++ [.function ⟨h.name.text, h.params, .func h.result, locals, body, size⟩] } := by
  unfold definition at hrun
  rw [run_get_bind] at hrun
  split at hrun
  · cases hrun
  rw [run_modify_bind] at hrun
  obtain ⟨v, s₁, h₁, hrun⟩ := bind_ok hrun
  obtain ⟨body, s₂, h₂, hrun⟩ := bind_ok hrun
  cases hrun
  have hknown : s.Consumes 1
      { s with signatures := s.signatures.define h.name.text h.paramTypes } :=
    .beside rfl rfl (List.prefix_refl _)
  have hread := hknown.trans ((Consumes.expect "\x7b" v s₁ h₁).trans (Consumes.block body s₂ h₂))
  exact ⟨s₂, s₂.scope.locals, body, s₂.scope.size, hread.mono (one_mul _).le, rfl⟩

theorem function_takesItem {u : Unit} (hrun : function.run s = .ok u s') : s.TakesItem s' := by
  unfold function at hrun
  obtain ⟨h, s₁, h₁, hrun⟩ := bind_ok hrun
  obtain ⟨w, hw, hdescribes⟩ := header_consumes h₁
  rw [run_bind, run_accept] at hrun
  split at hrun
  · rename_i hsemicolon
    obtain ⟨ts, hrest⟩ := State.rest_of_is hsemicolon
    have hmark : s₁.Consumes (mark ";") { s₁ with rest := s₁.rest.tail } := .next hrest hsemicolon
    have hread := (hw.trans (hmark.trans (prototype_consumes hrun))).mono
      (show _ ≤ (Item.prototype w).written by rw [mul_one]; exact le_rfl)
    intro hclean
    obtain ⟨hclean, hobjects, hfront⟩ := hread hclean
    exact ⟨hclean, .prototype w, [], rfl, by rw [hobjects, List.append_nil], hfront⟩
  · obtain ⟨s₂, locals, body, size, hbody, rfl⟩ := definition_consumes hrun
    intro hclean
    obtain ⟨hclean, hobjects, hfront⟩ := (hw.trans hbody) hclean
    exact ⟨hclean, .definition w, _, ⟨_, h.result, rfl, rfl, hdescribes⟩,
      congrArg (· ++ _) hobjects, hfront⟩

theorem declareGlobal_ok {d : Declared} {u : Unit} (hrun : (declareGlobal d).run s = .ok u s') :
    s' = { s with objects := s.objects ++ [.global ⟨d.name.text, d.ty⟩] } := by
  unfold declareGlobal at hrun
  rw [run_get_bind] at hrun
  split at hrun <;> cases hrun
  rfl

/-- The declarators of a global declaration; each adds its variable. -/
theorem globalDeclarators_consumes (budget : Nat) : ∀ {s s' : State} {first : Bool} {u : Unit},
    (globalDeclarators budget .int first).run s = .ok u s' → s'.Clean →
    s.Clean ∧ ∃ ds : List Declarator,
      s'.objects = s.objects ++ ds.map (fun d => .global ⟨d.name, d.ty .int⟩) ∧
      ∃ front ∈ (if first then separated (ds.map Declarator.written)
        else commas (ds.map Declarator.written)) * mark ";", s.rest = front ++ s'.rest := by
  induction budget with
  | zero => intro s s' first u h; cases h
  | succ budget ih =>
    intro s s' first u h hclean
    unfold globalDeclarators at h
    rw [run_bind, run_accept] at h
    split at h
    · rename_i hsemicolon
      obtain ⟨ts, hrest⟩ := State.rest_of_is hsemicolon
      have hmark : s.Consumes (mark ";") { s with rest := s.rest.tail } := .next hrest hsemicolon
      cases h
      obtain ⟨hclean, hobjects, front, hfront, hrest⟩ := hmark hclean
      refine ⟨hclean, [], (List.append_nil _).symm, front, ?_, hrest⟩
      simpa only [List.map_nil, separated, commas, ite_self, one_mul] using hfront
    · rw [Outcome.andThen_ok, if_neg (by decide)] at h
      obtain ⟨v, s₁, h₁, h⟩ := bind_ok h
      obtain ⟨declared, s₂, h₂, h⟩ := bind_ok h
      obtain ⟨d, hd, hname, hty⟩ := declarator_consumes h₂
      rw [run_sees_bind] at h
      split at h
      · cases h
      obtain ⟨w, s₃, h₃, h⟩ := bind_ok h
      rw [declareGlobal_ok h₃, hname, hty] at h
      obtain ⟨hclean₂, ds, hobjects, back, hback, hrest⟩ := ih h hclean
      obtain ⟨hclean, hobjects₂, front, hfront, hrest₂⟩ :=
        (Consumes.separator first v s₁ h₁).trans hd hclean₂
      refine ⟨hclean, d :: ds, ?_, front ++ back, ?_, ?_⟩
      · rw [hobjects, hobjects₂, List.append_assoc, List.map_cons, List.singleton_append]
      · have happend := Language.append_mem_mul hfront hback
        cases first with
        | true => simpa [separated, mul_assoc] using happend
        | false => simpa [commas, mul_assoc] using happend
      · rw [hrest₂, List.append_assoc, ← hrest]

theorem globals_takesItem {u : Unit} (hrun : globals.run s = .ok u s') : s.TakesItem s' := by
  unfold globals at hrun
  obtain ⟨base, s₁, h₁, hrun⟩ := bind_ok hrun
  obtain ⟨hint, rfl⟩ := typeName_consumes h₁
  rw [run_get_bind] at hrun
  intro hclean
  obtain ⟨hclean₁, ds, hobjects, back, hback, hrest⟩ := globalDeclarators_consumes _ hrun hclean
  obtain ⟨hclean, hobjects₁, front, hfront, hrest₁⟩ := hint hclean₁
  refine ⟨hclean, .globals ds, _, rfl, by rw [hobjects, hobjects₁], front ++ back, ?_, ?_⟩
  · exact Language.append_mem_mul hfront hback
  · rw [hrest₁, hrest, List.append_assoc]

/-! ## Whole texts -/

/-- Where no error is recorded, nothing was skipped. -/
theorem recovering_clean {p : Parser Unit} {skip : List Token → List Token → List Token} {u : Unit}
    (hrun : (recovering p skip).run s = .ok u s') (hclean : s'.Clean) : p.run s = .ok () s' := by
  unfold recovering at hrun
  rw [run_get_bind, run_bind] at hrun
  cases hp : p.run s with
  | ok a s₁ =>
    simp only [attempt, hp] at hrun
    cases hrun
    rfl
  | rejected r s₁ =>
    simp only [attempt, hp] at hrun
    cases hrun
    have hfatal := hclean (.rejected r) (List.mem_append_right _ (List.mem_singleton_self _))
    cases hfatal
  | faulted f =>
    simp only [attempt, hp] at hrun
    cases hrun

theorem object_takesItem {u : Unit} (hrun : object.run s = .ok u s') : s.TakesItem s' := by
  intro hclean
  unfold object at hrun
  rw [run_modify_bind, run_get_bind] at hrun
  split at hrun
  · have hfunction := function_takesItem (recovering_clean hrun hclean)
    exact hfunction hclean
  · have hglobals := globals_takesItem (recovering_clean hrun hclean)
    exact hglobals hclean

theorem objects_outlines (budget : Nat) : ∀ {s s' : State} {u : Unit},
    (objects budget).run s = .ok u s' → s'.Clean →
    s.Clean ∧ ∃ read, s'.objects = s.objects ++ read ∧ Outlines s.rest read := by
  induction budget with
  | zero => intro s s' u h; cases h
  | succ budget ih =>
    intro s s' u h hclean
    unfold objects at h
    rw [run_atEnd_bind] at h
    split at h
    · rename_i hend
      cases h
      refine ⟨hclean, [], (List.append_nil _).symm, ?_⟩
      rw [List.isEmpty_iff.1 hend]
      exact .nil
    · obtain ⟨v, s₁, h₁, h⟩ := bind_ok h
      obtain ⟨hclean₁, read, hobjects, houtline⟩ := ih h hclean
      obtain ⟨hclean, item, listed, hlisted, hobjects₁, front, hfront, hrest⟩ :=
        object_takesItem h₁ hclean₁
      refine ⟨hclean, listed ++ read, ?_, ?_⟩
      · rw [hobjects, hobjects₁, List.append_assoc]
      · rw [hrest]
        exact .cons item hfront hlisted houtline

end Parser

/-- Nothing outside the grammar is read without an error: if none is recorded, the tokens up to the
first end mark are a program of the grammar, and the objects are those of its outline, in order. -/
theorem parse_outlines {tokens : List Token} {parsed : Parsed} (h : parse tokens = .ok parsed)
    (hclean : ∀ issue ∈ parsed.issues, issue.isFatal = false) :
    Form.program.Derives (tokens.takeWhile (·.kind != .eof)) ∧
      Outlines (tokens.takeWhile (·.kind != .eof)) parsed.program.objects := by
  unfold parse Parser.unit at h
  rw [Parser.run_get_bind, Parser.run_bind] at h
  cases hrun : (Parser.objects ((State.ofTokens tokens).rest.length + 1)).run (.ofTokens tokens) with
  | ok u s =>
    rw [hrun] at h
    cases h
    have hread : s.Clean := fun issue hissue => hclean issue (List.mem_append_left _ hissue)
    obtain ⟨-, read, hobjects, houtline⟩ := Parser.objects_outlines _ hrun hread
    rw [← show s.objects = read from hobjects] at houtline
    exact ⟨houtline.derives, houtline⟩
  | rejected r s => exact absurd hrun (Discipline.objects_ne_rejected _ _ _ _)
  | faulted f => rw [hrun] at h; cases h

/-- A prototype, a declaration of two variables, one of none, and a definition that calls a function
nobody declares. -/
def outlinedSource : String :=
  "int f(int *a); int *g, h[2][3]; int; int f(int a[4]) \x7b int i, s = 0; " ++
    "for (i = 0; i < 4; i = i + 1) \x7b s = s + a[i]; \x7d return k(s, sizeof i); \x7d"

theorem outlinedSource_outlines :
    ∃ parsed, parse (Source.tokenize outlinedSource).tokens = .ok parsed ∧
      (∀ issue ∈ parsed.issues, issue.isFatal = false) ∧
      parsed.program.objects.map Object.name = ["g", "h", "f"] ∧
      Form.program.Derives
        ((Source.tokenize outlinedSource).tokens.takeWhile (·.kind != .eof)) ∧
      Outlines ((Source.tokenize outlinedSource).tokens.takeWhile (·.kind != .eof))
        parsed.program.objects := by
  have hread : ((parse (Source.tokenize outlinedSource).tokens).toOption.map fun parsed =>
      (parsed.issues.map Issue.isFatal, parsed.program.objects.map Object.name)) =
      some ([false], ["g", "h", "f"]) := by decide +kernel
  cases hparse : parse (Source.tokenize outlinedSource).tokens with
  | error f => rw [hparse] at hread; cases hread
  | ok parsed =>
    rw [hparse] at hread
    obtain ⟨hissues, hnames⟩ := Prod.mk.inj (Option.some.inj hread)
    have hclean : ∀ issue ∈ parsed.issues, issue.isFatal = false := by
      intro issue hissue
      have hmem := List.mem_map_of_mem (f := Issue.isFatal) hissue
      rw [hissues] at hmem
      exact List.mem_singleton.1 hmem
    exact ⟨parsed, rfl, hclean, hnames, parse_outlines hparse hclean⟩

end WordC.Parse
