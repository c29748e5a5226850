import WordC.Proofs.Labels
import WordC.Proofs.ReadObjects

/-!
# Names

A name is known in two places, among the objects and in the table of signatures, and the two must not
contradict each other whatever was announced, defined, rejected or skipped before.

* `Source.spelled_tokenize`: the names in a source text are identifiers.
* `Signatures.find?_declare`, `Signatures.find?_define`: what is known of a name afterwards. An
  announcement never replaces what is known, a definition always does.
* `Signatures.Evolves`: what is known of functions is only replaced by definitions.
* `Parse.Consistent`: objects have different names; a function among them is known with its
  parameters, a global variable is no function.
* `Parse.named`: the discipline under which all this stays so.
* `Parse.parse_named`: so it is in what was read from any tokens.
-/
namespace WordC

/-! ## Spelling -/

namespace Segment

theorem symbol_ne_word (c : Char) (cs run : List Char) : (symbol c cs).1 ≠ word run := by
  unfold symbol
  repeat' split
  all_goals exact nofun

/-- A word at the front of a text is an identifier. -/
theorem isIdentifier_first {c : Char} {cs run : List Char} (h : (first c cs).1 = word run) :
    isIdentifier (String.ofList run) := by
  unfold first at h
  split at h
  · cases h
  · split at h
    · cases h
    · split at h <;> cases h
    · split at h
      · cases h
      · split at h
        · rename_i hstart
          cases h
          simp only [isIdentifier, String.toList_ofList, hstart, Bool.true_and]
          exact List.all_takeWhile
        · exact absurd h (symbol_ne_word c cs run)

theorem isIdentifier_of_mem_split {cs run : List Char} (h : word run ∈ split cs) :
    isIdentifier (String.ofList run) := by
  fun_induction split cs with
  | case1 => cases h
  | case2 c cs ih =>
    rcases List.mem_cons.1 h with h | h
    · exact isIdentifier_first h.symm
    · exact ih h

end Segment

namespace Parse

/-- The names among the tokens are identifiers. -/
def Spelled (tokens : List Token) : Prop := ∀ t ∈ tokens, t.kind = .ident → isIdentifier t.lexeme

end Parse

theorem Source.spelled_tokenize (source : String) :
    Parse.Spelled (Source.tokenize source).tokens := by
  intro t ht hkind
  rcases List.mem_append.1 ht with ht | ht
  · obtain ⟨p, hp, hpt⟩ := List.mem_filterMap.1 ht
    have hsegment : p.segment ∈ Segment.split source.toList := by
      have := List.mem_map_of_mem (f := Placed.segment) hp
      rwa [segments, Placed.map_segment_along] at this
    unfold Placed.token? at hpt
    cases hcase : p.segment with
    | word run =>
      rw [hcase] at hpt hsegment
      cases hpt
      exact Segment.isIdentifier_of_mem_split hsegment
    | digits run =>
      rw [hcase, Segment.token?] at hpt
      split at hpt
      · cases hpt
        cases hkind
      · cases hpt
    | punctuator run =>
      rw [hcase] at hpt
      cases hpt
      cases hkind
    | blank c | lineComment body | blockComment body | openComment body | stray c =>
      rw [hcase] at hpt
      cases hpt
  · rw [List.mem_singleton.1 ht] at hkind
    cases hkind

/-! ## The table of signatures -/

namespace Signatures

variable (t : Signatures) (x y : String) (params : List Ty)

theorem find?_add {signature : Signature} (h : t.find? x = none) :
    Signatures.find? ⟨t.entries ++ [(x, signature)]⟩ y =
      if y = x then some signature else t.find? y := by
  simp only [find?, List.lookup_append] at h ⊢
  by_cases hy : y = x
  · subst hy
    simp [h]
  · have hbeq : (y == x) = false := beq_eq_false_iff_ne.2 hy
    simp [hy, hbeq, List.lookup_cons]

theorem find?_replace {signature known : Signature} (h : t.find? x = some known) :
    Signatures.find? ⟨t.entries.map fun e => if e.1 == x then (x, signature) else e⟩ y =
      if y = x then some signature else t.find? y := by
  obtain ⟨entries⟩ := t
  simp only [find?] at h ⊢
  by_cases hy : y = x
  · -- The first entry of the name is replaced.
    subst hy
    rw [if_pos rfl]
    induction entries with
    | nil => cases h
    | cons e entries ih =>
      rw [List.map_cons, List.lookup_cons]
      rw [List.lookup_cons] at h
      by_cases he : e.1 = y
      · simp [he]
      · have hne : (y == e.1) = false := beq_eq_false_iff_ne.2 (Ne.symm he)
        rw [hne] at h
        simpa [he, hne] using ih h
  · -- No entry of another name is touched.
    rw [if_neg hy]
    have hyx : (y == x) = false := beq_eq_false_iff_ne.2 hy
    clear h
    induction entries with
    | nil => rfl
    | cons e entries ih =>
      rw [List.map_cons, List.lookup_cons, List.lookup_cons, ih]
      by_cases he : e.1 = x
      · simp [he, hyx]
      · simp [he]

/-- A name keeps the signature it has. -/
theorem find?_declare :
    (t.declare x params).find? y =
      if y = x then some ((t.find? x).getD ⟨params, false⟩) else t.find? y := by
  unfold declare contains
  cases hx : t.find? x with
  | none => simpa using t.find?_add x y hx
  | some known =>
    by_cases hy : y = x
    · subst hy
      simp [hx]
    · simp [hy]

/-- A definition replaces the signature a name has. -/
theorem find?_define :
    (t.define x params).find? y = if y = x then some ⟨params, true⟩ else t.find? y := by
  unfold define contains
  cases hx : t.find? x with
  | none => simpa using t.find?_add x y hx
  | some known => simpa using t.find?_replace x y hx

/-- What was known of a name is still known of it, unless a definition has taken the place of mere
announcements. -/
def Evolves (t t' : Signatures) : Prop :=
  ∀ x known, t.find? x = some known →
    t'.find? x = some known ∨ known.defined = false ∧ ∃ params, t'.find? x = some ⟨params, true⟩

namespace Evolves

variable {t t' t'' : Signatures} {x : String} {params : List Ty}

theorem refl (t : Signatures) : t.Evolves t := fun _ _ h => .inl h

theorem empty (t : Signatures) : Signatures.empty.Evolves t := fun _ _ h => by cases h

theorem trans (h : t.Evolves t') (h' : t'.Evolves t'') : t.Evolves t'' := by
  intro x known hknown
  rcases h x known hknown with hsame | ⟨hnot, params, hparams⟩
  · exact h' x known hsame
  · -- A definition is never replaced.
    rcases h' x _ hparams with hsame | ⟨hnot', -⟩
    · exact .inr ⟨hnot, params, hsame⟩
    · cases hnot'

theorem declare (h : t.Evolves t') : t.Evolves (t'.declare x params) := by
  refine h.trans fun y known hknown => .inl ?_
  rw [find?_declare]
  split
  · rename_i hy
    rw [← hy, hknown]
    rfl
  · exact hknown

theorem define (h : t.Evolves t') (hx : t'.isDefined x = false) :
    t.Evolves (t'.define x params) := by
  refine h.trans fun y known hknown => ?_
  rw [find?_define]
  split
  · rename_i hy
    subst hy
    refine .inr ⟨?_, params, rfl⟩
    simpa [isDefined, hknown] using hx
  · exact .inl hknown

end Evolves

end Signatures

/-! ## Objects and signatures -/

namespace Parse

/-- The objects and the signatures know each name as one thing: objects have different names, a function
among them is known as defined, with its parameters, and a global variable is no function. -/
structure Consistent (objects : List Object) (known : Signatures) : Prop where
  apart : (objects.map Object.name).Nodup
  functions : ∀ f, .function f ∈ objects → known.find? f.name = some ⟨f.params.map Local.ty, true⟩
  globals : ∀ v, .global v ∈ objects → known.find? v.name = none

theorem Consistent.nil (known : Signatures) : Consistent [] known where
  apart := List.nodup_nil
  functions _ hf := by cases hf
  globals _ hv := by cases hv

namespace Consistent

variable {s : State} {x : String}

theorem global_ne (hx : s.isGlobal x = false) {v : Global} (hv : .global v ∈ s.objects) :
    v.name ≠ x := by
  rintro rfl
  simp only [State.isGlobal, State.global?, Option.isSome_eq_false_iff, Option.isNone_iff_eq_none,
    List.find?_eq_none] at hx
  exact hx v (List.mem_filterMap.2 ⟨_, hv, rfl⟩) (beq_self_eq_true _)

/-- A name that is neither defined nor a global variable names no object. -/
theorem notMem_names (h : Consistent s.objects s.signatures) (hx : s.signatures.isDefined x = false)
    (hglobal : s.isGlobal x = false) : x ∉ s.objects.map Object.name := by
  intro hmem
  obtain ⟨o, ho, rfl⟩ := List.mem_map.1 hmem
  cases o with
  | global v => exact global_ne hglobal ho rfl
  | function f => simp [Signatures.isDefined, Object.name, h.functions f ho] at hx

theorem declare (h : Consistent s.objects s.signatures) (params : List Ty)
    (hglobal : s.isGlobal x = false) : Consistent s.objects (s.signatures.declare x params) where
  apart := h.apart
  functions f hf := by
    rw [Signatures.find?_declare]
    split
    · rename_i hname
      rw [← hname, h.functions f hf]
      rfl
    · exact h.functions f hf
  globals v hv := by
    rw [Signatures.find?_declare, if_neg (global_ne hglobal hv)]
    exact h.globals v hv

theorem define (h : Consistent s.objects s.signatures) (params : List Ty)
    (hx : s.signatures.isDefined x = false) (hglobal : s.isGlobal x = false) :
    Consistent s.objects (s.signatures.define x params) where
  apart := h.apart
  functions f hf := by
    have hne : f.name ≠ x := by
      rintro rfl
      exact h.notMem_names hx hglobal (List.mem_map_of_mem (f := Object.name) hf)
    rw [Signatures.find?_define, if_neg hne]
    exact h.functions f hf
  globals v hv := by
    rw [Signatures.find?_define, if_neg (global_ne hglobal hv)]
    exact h.globals v hv

/-- One more object with a name of its own. -/
theorem addObject {objects : List Object} {known : Signatures} (h : Consistent objects known)
    {o : Object} (hnew : o.name ∉ objects.map Object.name)
    (hfunction : ∀ f, o = .function f → known.find? f.name = some ⟨f.params.map Local.ty, true⟩)
    (hglobal : ∀ v, o = .global v → known.find? v.name = none) :
    Consistent (objects ++ [o]) known where
  apart := by
    rw [List.map_append]
    exact h.apart.append (List.nodup_singleton _) (by simpa using hnew)
  functions f hf := by
    rcases List.mem_append.1 hf with hf | hf
    · exact h.functions f hf
    · exact hfunction f (List.mem_singleton.1 hf).symm
  globals v hv := by
    rcases List.mem_append.1 hv with hv | hv
    · exact h.globals v hv
    · exact hglobal v (List.mem_singleton.1 hv).symm

theorem addGlobal (h : Consistent s.objects s.signatures) {ty : Ty} (hglobal : s.isGlobal x = false)
    (hx : s.signatures.contains x = false) :
    Consistent (s.objects ++ [.global ⟨x, ty⟩]) s.signatures := by
  have hnone : s.signatures.find? x = none := by simpa [Signatures.contains] using hx
  refine h.addObject (h.notMem_names ?_ hglobal) (fun f hf => by cases hf) ?_
  · show s.signatures.isDefined x = false
    simp [Signatures.isDefined, hnone]
  · rintro v hv
    cases hv
    exact hnone

/-- The function was neither defined nor a global variable in front of its body, in the state `s₀`. -/
theorem addFunction (h : Consistent s.objects s.signatures) {s₀ : State} {f : Function}
    (h₀ : Consistent s₀.objects s₀.signatures) (hx : s₀.signatures.isDefined f.name = false)
    (hglobal : s₀.isGlobal f.name = false) (hobjects : s.objects = s₀.objects)
    (hsignatures : s.signatures = s₀.signatures.define f.name (f.params.map Local.ty)) :
    Consistent (s.objects ++ [.function f]) s.signatures := by
  refine h.addObject ?_ ?_ (fun v hv => by cases hv)
  · rw [hobjects]
    exact h₀.notMem_names hx hglobal
  · rintro g hg
    cases hg
    rw [hsignatures, Signatures.find?_define, if_pos rfl]

end Consistent

/-- The names to be read and those read are `legal`, each is known as one thing, and what was `known` of
functions has only evolved. -/
structure State.Named (legal : String → Prop) (known : Signatures) (s : State) : Prop where
  tokens : ∀ t ∈ s.rest, t.kind = .ident → legal t.lexeme
  spelled : ∀ o ∈ s.objects, legal o.name
  consistent : Consistent s.objects s.signatures
  evolved : known.Evolves s.signatures

theorem State.Named.addObject {legal : String → Prop} {known : Signatures} {s : State}
    (h : s.Named legal known) {o : Object} (hspelled : legal o.name)
    (hconsistent : Consistent (s.objects ++ [o]) s.signatures) :
    State.Named legal known { s with objects := s.objects ++ [o] } :=
  { h with
    spelled := List.forall_mem_append.2 ⟨h.spelled, List.forall_mem_singleton.2 hspelled⟩
    consistent := hconsistent }

/-- Reading that keeps the names apart, whatever faults there are. -/
def named (legal : String → Prop) (known : Signatures) : Discipline where
  Inv := State.Named legal known
  Tree _ _ := True
  Shape _ := True
  Value _ := True
  Name x := legal x
  Allowed _ := True
  value _ _ _ _ := trivial
  name {s t ts} hs hrest hkind := hs.tokens t (by rw [hrest]; exact List.mem_cons_self) hkind
  read hs hrest := { hs with tokens := fun t ht => hs.tokens t (hrest.subset ht) }
  record _ hs := { hs with }
  wait _ hs _ := { hs with }
  grows _ _ := trivial
  num _ := trivial
  sizeof _ _ := trivial
  sizeof_fault _ _ := trivial
  var _ _ := trivial
  unary _ _ _ := trivial
  binary _ _ _ _ := trivial
  binary_fault _ _ _ _ := trivial
  assign _ _ _ _ := trivial
  call _ _ _ := trivial
  int := trivial
  ptr _ := trivial
  decay _ := trivial
  array _ _ _ _ := trivial
  size_fault _ _ := trivial
  enter hs := { hs with }
  declareLocal hs _ _ _ _ _ _ _ := { hs with }
  offset_fault _ _ _ _ _ _ := trivial
  declare params _ _ hs _ hglobal :=
    { hs with consistent := hs.consistent.declare params hglobal, evolved := hs.evolved.declare }
  define params hs _ hx hglobal :=
    { hs with consistent := hs.consistent.define params hx hglobal, evolved := hs.evolved.define hx }
  declareGlobal hs hname _ hglobal hx := hs.addObject hname (hs.consistent.addGlobal hglobal hx)
  defineFunction _ _ h₀ hname hx hglobal hobjects hsignatures hs _ _ :=
    hs.addObject hname (hs.consistent.addFunction h₀.consistent hx hglobal hobjects hsignatures)

/-- In what was read, with or without issues, the objects have different names, which are
identifiers, and the functions among them are known with as many parameters as they have. -/
theorem parse_named {tokens : List Token} {parsed : Parsed} (htokens : Spelled tokens)
    (h : parse tokens = .ok parsed) :
    (∀ o ∈ parsed.program.objects, isIdentifier o.name) ∧
    (parsed.program.objects.map Object.name).Nodup ∧
    ∀ f, .function f ∈ parsed.program.objects →
      ∃ params, parsed.signatures.find? f.name = some ⟨params, true⟩ ∧ params.length = f.arity := by
  have hinit : (named (fun x => isIdentifier x) .empty).Inv (.ofTokens tokens) :=
    { tokens := fun t ht => htokens t ((List.takeWhile_prefix _).subset ht)
      spelled := List.forall_mem_nil _
      consistent := .nil _
      evolved := .empty _ }
  have hparse := Discipline.parse_keeps _ hinit
  rw [h] at hparse
  obtain ⟨s, hs, rfl⟩ := hparse
  exact ⟨hs.spelled, hs.consistent.apart,
    fun f hf => ⟨_, hs.consistent.functions f hf, List.length_map _⟩⟩

end Parse

end WordC
