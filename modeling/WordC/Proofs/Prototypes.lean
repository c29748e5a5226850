import WordC.Proofs.Along
import WordC.Proofs.Rounds

/-!
# Rejected prototypes

A function that is rejected is skipped to the end of its body, or, as long as no body has begun, to the
next semicolon. A prototype has no body, so behind its semicolon reading should go on with the next
object. That is so for every rejection but one: that a global variable has the name is found when the
semicolon is already read, and then the object behind the prototype is skipped as well.

* `State.Nears`: no semicolon was read, and objects and tables are as they were.
* `Parser.Along.header`: the reader of a header keeps to it, as do those of its parts.
* `PrototypeAhead`: the tokens up to the first semicolon start a function and hold no brace.
* `function_rejected`: where the rejection of a prototype leaves the tokens.
* `rejected_prototype`: where the next round starts.
-/
namespace WordC.Parse

/-! ## In front of a semicolon -/

/-- From `s` to `s'` tokens were read, none of them a semicolon, and locals were declared. -/
structure State.Nears (s s' : State) : Prop where
  tokens : ∃ read, s.rest = read ++ s'.rest ∧ ∀ t ∈ read, t.is ";" = false
  only : s' = { s with rest := s'.rest, scope := s'.scope }

namespace State.Nears

variable {s s' s'' : State}

theorem refl (s : State) : s.Nears s := ⟨⟨[], rfl, List.forall_mem_nil _⟩, rfl⟩

theorem trans (h : s.Nears s') (h' : s'.Nears s'') : s.Nears s'' := by
  obtain ⟨read, hread, hplain⟩ := h.tokens
  obtain ⟨read', hread', hplain'⟩ := h'.tokens
  refine ⟨⟨read ++ read', ?_, List.forall_mem_append.2 ⟨hplain, hplain'⟩⟩, ?_⟩
  · rw [hread, hread', List.append_assoc]
  · rw [h'.only, h.only]

theorem advance (h : s.current.is ";" = false) : s.Nears { s with rest := s.rest.tail } := by
  refine ⟨?_, rfl⟩
  cases hrest : s.rest with
  | nil => exact ⟨[], rfl, List.forall_mem_nil _⟩
  | cons t ts =>
    rw [State.current, hrest] at h
    exact ⟨[t], rfl, List.forall_mem_singleton.2 h⟩

theorem suffix (h : s.Nears s') : s'.rest <:+ s.rest := by
  obtain ⟨read, hread, -⟩ := h.tokens
  exact ⟨read, hread.symm⟩

/-- The next token is one of those that were to be read. -/
theorem suffix_next (h : s.Nears s') {text : String} (htext : s'.current.is text) :
    s'.current :: s'.rest.tail <:+ s.rest := by
  obtain ⟨ts, hts⟩ := State.rest_of_is htext
  have hsuffix := h.suffix
  rw [hts] at hsuffix
  rwa [hts]

end State.Nears

instance : Course State.Nears := ⟨.refl, .trans, .advance⟩

/-! ## The readers of a header -/

namespace Parser

namespace Along

theorem typeName : Parser.typeName.Along State.Nears := (expect (by decide)).bind fun _ => pure _

theorem pointers (ty : Ty) : (Parser.pointers ty).Along State.Nears := by
  refine fun s => ⟨⟨s.rest.takeWhile (·.is "*"), ?_, fun t ht => ?_⟩, rfl⟩
  · show s.rest = s.rest.takeWhile (·.is "*") ++ (pointersFrom ty s.rest).2
    rw [pointersFrom_rest, List.takeWhile_append_dropWhile]
  · have hstar : t.is "*" := List.all_eq_true.1 List.all_takeWhile t ht
    rw [Token.is_of_is hstar]
    decide

theorem arrayOf (base : Ty) (len : Int) (loc : Loc) :
    (Parser.arrayOf base len loc).Along State.Nears := by
  refine (ofFault _).bind fun size => ?_
  split
  · exact pure _
  · exact reject _ _

theorem lengths (budget : Nat) (ty : Ty) : (Parser.lengths budget ty).Along State.Nears := by
  induction budget with
  | zero => exact fun _ => trivial
  | succ budget ih =>
    refine (accept (by decide)).bind fun _ => ite ?_ (pure ty)
    refine here.bind fun loc => number.bind fun len => (expect (by decide)).bind fun _ => ?_
    exact ih.bind fun element => arrayOf element len loc

theorem declarator (base : Ty) : (Parser.declarator base).Along State.Nears :=
  (pointers base).bind fun _ => identifier.bind fun _ =>
    (get.bind fun _ => lengths _ _).bind fun _ => pure _

theorem declareLocal (name : Parser.Name) (ty : Ty) :
    (Parser.declareLocal name ty).Along State.Nears := by
  refine get.bind fun s => ite (reject _ _) ((ofFault _).bind fun size => ?_)
  split
  · exact reject _ _
  · refine ite ((ofFault _).bind fun offset => ?_) (reject _ _)
    exact fun s => ⟨⟨[], rfl, List.forall_mem_nil _⟩, rfl⟩

theorem parameters (budget : Nat) : (Parser.parameters budget).Along State.Nears := by
  induction budget with
  | zero => exact fun _ => trivial
  | succ budget ih =>
    refine typeName.bind fun base => (declarator base).bind fun d => (declareLocal _ _).bind fun v => ?_
    refine (accept (by decide)).bind fun _ => ite (pure _) ((expect (by decide)).bind fun _ => ?_)
    exact ih.bind fun _ => pure _

theorem header : Parser.header.Along State.Nears := by
  refine typeName.bind fun base => (pointers base).bind fun result => identifier.bind fun name => ?_
  refine (expect (by decide)).bind fun _ => get.bind fun s => (accept (by decide)).bind fun _ => ?_
  have hend : ∀ params : List Local,
      (if maxArgs < params.length then Parser.reject name.loc (.tooManyParameters name.text)
        else Pure.pure ⟨name, result, params⟩ : Parser Parser.Header).Along State.Nears := fun params =>
    ite (reject _ _) (pure _)
  exact ite (hend []) ((parameters _).bind hend)

end Along

/-! ## The end of a header -/

variable {α β : Type}

/-- The last token of the parameters is a closing parenthesis. -/
theorem parameters_closes (budget : Nat) : ∀ {s s' : State} {params : List Local},
    (parameters budget).run s = .ok params s' → ∃ t, t.is ")" ∧ t :: s'.rest <:+ s.rest := by
  induction budget with
  | zero => intro s s' params h; cases h
  | succ budget ih =>
    intro s s' params h
    obtain ⟨base, s₁, h₁, h⟩ := bind_ok h
    obtain ⟨d, s₂, h₂, h⟩ := bind_ok h
    obtain ⟨v, s₃, h₃, h⟩ := bind_ok h
    have hs₃ := ((Along.typeName.ok h₁).trans ((Along.declarator base).ok h₂)).trans
      ((Along.declareLocal _ _).ok h₃)
    rw [run_bind, run_accept] at h
    by_cases hclose : s₃.current.is ")"
    · rw [if_pos hclose] at h
      cases h
      exact ⟨s₃.current, hclose, hs₃.suffix_next hclose⟩
    · rw [if_neg hclose] at h
      obtain ⟨u, s₄, h₄, h⟩ := bind_ok h
      obtain ⟨more, s₅, h₅, h⟩ := bind_ok h
      obtain ⟨t, ht, hsuffix⟩ := ih h₅
      cases h
      have hs₄ : s₃.Nears s₄ := (Along.expect (by decide)).ok h₄
      exact ⟨t, ht, hsuffix.trans (hs₄.suffix.trans hs₃.suffix)⟩

/-- The last token of a header is a closing parenthesis. -/
theorem header_closes {s s' : State} {h : Header} (hrun : header.run s = .ok h s') :
    ∃ t, t.is ")" ∧ t :: s'.rest <:+ s.rest := by
  unfold header at hrun
  obtain ⟨base, s₁, h₁, hrun⟩ := bind_ok hrun
  obtain ⟨result, s₂, h₂, hrun⟩ := bind_ok hrun
  obtain ⟨name, s₃, h₃, hrun⟩ := bind_ok hrun
  obtain ⟨u, s₄, h₄, hrun⟩ := bind_ok hrun
  have hname : s₂.Nears s₃ := Along.identifier.ok h₃
  have hopen : s₃.Nears s₄ := (Along.expect (by decide)).ok h₄
  have hs₄ := ((Along.typeName.ok h₁).trans ((Along.pointers base).ok h₂)).trans (hname.trans hopen)
  have hend : ∀ (params : List Local) (s₅ : State),
      (if maxArgs < params.length then reject name.loc (.tooManyParameters name.text)
        else pure ⟨name, result, params⟩ : Parser Header).run s₅ = .ok h s' → s' = s₅ := by
    intro params s₅ hend
    split at hend <;> cases hend
    rfl
  rw [run_get_bind, run_bind, run_accept] at hrun
  by_cases hclose : s₄.current.is ")"
  · rw [if_pos hclose] at hrun
    obtain rfl := hend [] _ hrun
    exact ⟨s₄.current, hclose, hs₄.suffix_next hclose⟩
  · rw [if_neg hclose] at hrun
    obtain ⟨params, s₅, h₅, hrun⟩ := bind_ok hrun
    obtain rfl := hend params s₅ hrun
    obtain ⟨t, ht, hsuffix⟩ := parameters_closes _ h₅
    exact ⟨t, ht, hsuffix.trans hs₄.suffix⟩

/-- A reader is rejected in its first or in its second part. -/
theorem bind_rejected {p : Parser α} {f : α → Parser β} {s s' : State} {r : Rejection}
    (h : (p >>= f).run s = .rejected r s') :
    p.run s = .rejected r s' ∨ ∃ a s₁, p.run s = .ok a s₁ ∧ (f a).run s₁ = .rejected r s' := by
  rw [run_bind] at h
  cases hp : p.run s with
  | ok a s₁ => rw [hp] at h; exact .inr ⟨a, s₁, rfl, h⟩
  | rejected r₁ s₁ => rw [hp] at h; cases h; exact .inl rfl
  | faulted f => rw [hp] at h; cases h

end Parser

/-! ## Behind a semicolon -/

/-- The tokens up to the first semicolon start a function and hold no brace; `rest` is behind it. -/
structure PrototypeAhead (ts front : List Token) (semicolon : Token) (rest : List Token) : Prop where
  tokens : ts = front ++ semicolon :: rest
  starts : startsFunction ts
  ends : semicolon.is ";"
  plain : ∀ t ∈ front, t.is ";" = false ∧ t.is "\x7b" = false ∧ t.is "\x7d" = false

section

variable {front rest : List Token} {semicolon : Token}

theorem no_brace_of_semicolon {t : Token} (h : t.is ";") :
    t.is "\x7b" = false ∧ t.is "\x7d" = false := by
  rw [Token.is_of_is h, Token.is_of_is h]
  decide

/-- Before any body has begun, skipping goes past what is neither a brace nor a semicolon. -/
theorem skipBody_plain
    (hplain : ∀ t ∈ front, t.is ";" = false ∧ t.is "\x7b" = false ∧ t.is "\x7d" = false)
    (ts : List Token) : skipBody false 0 (front ++ ts) = skipBody false 0 ts := by
  induction front with
  | nil => rfl
  | cons t front ih =>
    obtain ⟨⟨hsemicolon, hopen, hclose⟩, hplain⟩ := List.forall_mem_cons.1 hplain
    simp [skipBody, hsemicolon, hopen, hclose, ih hplain]

/-- Without a brace in front of it, the first semicolon is where skipping ends. -/
theorem skipBody_semicolon (hends : semicolon.is ";")
    (hplain : ∀ t ∈ front, t.is ";" = false ∧ t.is "\x7b" = false ∧ t.is "\x7d" = false) :
    skipBody false 0 (front ++ semicolon :: rest) = rest := by
  obtain ⟨hopen, hclose⟩ := no_brace_of_semicolon hends
  rw [skipBody_plain hplain]
  simp [skipBody, hends, hopen, hclose]

/-- Where no brace was read, no body has begun. -/
theorem skipFunction_unopened {start : List Token}
    (hplain : ∀ t ∈ consumed start rest, t.is "\x7b" = false ∧ t.is "\x7d" = false) :
    skipFunction start rest = skipBody false 0 rest := by
  have hopen : (consumed start rest).countP (·.is "\x7b") = 0 :=
    List.countP_eq_zero.2 fun t ht => by simp [(hplain t ht).1]
  have hclose : (consumed start rest).countP (·.is "\x7d") = 0 :=
    List.countP_eq_zero.2 fun t ht => by simp [(hplain t ht).2]
  simp [skipFunction, hopen, hclose]

theorem consumed_append (read rest : List Token) : consumed (read ++ rest) rest = read := by
  simp [consumed]

theorem skipFunction_append {read : List Token}
    (hplain : ∀ t ∈ read, t.is "\x7b" = false ∧ t.is "\x7d" = false) (rest : List Token) :
    skipFunction (read ++ rest) rest = skipBody false 0 rest :=
  skipFunction_unopened (by rwa [consumed_append])

/-- Where no semicolon was read, the first one is still ahead. -/
theorem left_of_semicolon {read left : List Token} (hends : semicolon.is ";")
    (h : front ++ semicolon :: rest = read ++ left) (hplain : ∀ t ∈ read, t.is ";" = false) :
    ∃ back, front = read ++ back ∧ left = back ++ semicolon :: rest := by
  rcases List.append_eq_append_iff.1 h with ⟨back, hback, hrest⟩ | ⟨back, hback, hrest⟩
  · cases back with
    | nil => exact ⟨[], by simpa using hback.symm, by simpa using hrest.symm⟩
    | cons t back =>
      -- The semicolon would be among the tokens read.
      obtain ⟨rfl, -⟩ := List.cons.inj hrest
      have hsemicolon := hplain semicolon (by rw [hback]; simp)
      rw [hends] at hsemicolon
      cases hsemicolon
  · exact ⟨back, hback, hrest⟩

namespace PrototypeAhead

variable {s s' : State}

theorem ne_nil (h : PrototypeAhead s.rest front semicolon rest) : s.rest ≠ [] := by
  rw [h.tokens]
  exact List.append_ne_nil_of_right_ne_nil _ (List.cons_ne_nil _ _)

/-- What is left in front of the semicolon when a reader has come nearer to it. -/
theorem left (h : PrototypeAhead s.rest front semicolon rest) (hs : s.Nears s') :
    ∃ read back, front = read ++ back ∧ s'.rest = back ++ semicolon :: rest := by
  obtain ⟨read, hread, hplain⟩ := hs.tokens
  obtain ⟨back, hfront, hrest⟩ := left_of_semicolon h.ends (h.tokens.symm.trans hread) hplain
  exact ⟨read, back, hfront, hrest⟩

/-- The next token is the semicolon just when nothing is left in front of it, and it is no brace. -/
theorem current_left {back : List Token} (h : PrototypeAhead s.rest front semicolon rest)
    (hback : ∀ t ∈ back, t ∈ front) (hs' : s'.rest = back ++ semicolon :: rest) :
    (s'.current.is ";" ↔ back = []) ∧ s'.current.is "\x7b" = false := by
  rw [State.current, hs']
  cases back with
  | nil => exact ⟨iff_of_true h.ends rfl, (no_brace_of_semicolon h.ends).1⟩
  | cons t back =>
    obtain ⟨hsemicolon, hopen, -⟩ := h.plain t (hback t List.mem_cons_self)
    exact ⟨iff_of_false (by simp [hsemicolon]) (List.cons_ne_nil _ _), hopen⟩

/-- A header that stops in front of other tokens than the semicolon ends with a parenthesis among the
tokens in front of them. -/
theorem closes_early {h' : Parser.Header} {read back : List Token}
    (h : PrototypeAhead s.rest front semicolon rest) (hrun : Parser.header.run s = .ok h' s')
    (hfront : front = read ++ back) (hs' : s'.rest = back ++ semicolon :: rest) (hback : back ≠ []) :
    ∃ t ∈ front.dropLast, t.is ")" := by
  obtain ⟨t, ht, before, hbefore⟩ := Parser.header_closes hrun
  refine ⟨t, ?_, ht⟩
  rw [h.tokens, hs', hfront, List.append_assoc, List.append_cons, List.append_left_inj] at hbefore
  rw [hfront, List.dropLast_append_of_ne_nil hback, ← hbefore]
  simp

end PrototypeAhead

/-- Without a body, the definition of a function is rejected where it should begin. -/
theorem definition_rejected {s s₁ : State} {h : Parser.Header} {r : Rejection}
    (hopen : s.current.is "\x7b" = false) (hrun : (Parser.definition h).run s = .rejected r s₁) :
    ∃ known, s₁ = { s with signatures := known } := by
  unfold Parser.definition at hrun
  rw [Parser.run_get_bind] at hrun
  split at hrun
  · cases hrun
    exact ⟨_, rfl⟩
  · rw [Parser.run_modify_bind] at hrun
    have hexpect : ∀ known, ∃ r, (Parser.expect "\x7b").run { s with signatures := known } =
        .rejected r { s with signatures := known } := by
      intro known
      refine ⟨⟨s.current.loc, .expectedToken "\x7b" s.current.describe⟩, ?_⟩
      unfold Parser.expect
      rw [Parser.run_bind, Parser.run_accept, if_neg]
      · rfl
      · show ¬s.current.is "\x7b" = true
        simp [hopen]
    obtain ⟨r', hr'⟩ := hexpect (s.signatures.define h.name.text h.paramTypes)
    rw [Parser.run_bind, hr'] at hrun
    cases hrun
    exact ⟨_, rfl⟩

/-- A prototype is rejected in front of its semicolon, or right behind it because a global variable has
its name. Functions become known by it only if it holds more than one closing parenthesis. -/
theorem function_rejected {s s₁ : State} {r : Rejection}
    (h : PrototypeAhead s.rest front semicolon rest)
    (hrun : Parser.function.run s = .rejected r s₁) :
    ((∃ read back, front = read ++ back ∧ s₁.rest = back ++ semicolon :: rest) ∨
      s₁.rest = rest ∧ ∃ name, s.isGlobal name ∧ r.problem = .redefinition name) ∧
    s₁.issues = s.issues ∧ s₁.objects = s.objects ∧ s₁.pending = s.pending ∧
    ((∀ t ∈ front.dropLast, t.is ")" = false) → s₁.signatures = s.signatures) := by
  unfold Parser.function at hrun
  rcases Parser.bind_rejected hrun with hheader | ⟨h', s₂, hheader, hrun⟩
  · have hs₁ := Parser.Along.header.rejected hheader
    refine ⟨.inl (h.left hs₁), ?_⟩
    rw [hs₁.only]
    exact ⟨rfl, rfl, rfl, fun _ => rfl⟩
  have hs₂ := Parser.Along.header.ok hheader
  obtain ⟨read, back, hfront, hback⟩ := h.left hs₂
  obtain ⟨hcurrent, hopen⟩ := h.current_left (fun t ht => by rw [hfront]; simp [ht]) hback
  rw [Parser.run_bind, Parser.run_accept] at hrun
  by_cases hsemicolon : s₂.current.is ";"
  · -- The header ends in front of the semicolon, so this is a prototype.
    rw [if_pos hsemicolon, Outcome.andThen_ok, if_pos rfl] at hrun
    obtain rfl := hcurrent.1 hsemicolon
    unfold Parser.prototype at hrun
    rw [Parser.run_get_bind] at hrun
    split at hrun
    · rename_i hglobal
      cases hrun
      rw [hs₂.only] at hglobal
      refine ⟨.inr ⟨by rw [hback]; rfl, h'.name.text, hglobal, rfl⟩, ?_⟩
      rw [hs₂.only]
      exact ⟨rfl, rfl, rfl, fun _ => rfl⟩
    · cases hrun
  · rw [if_neg hsemicolon, Outcome.andThen_ok, if_neg (by decide)] at hrun
    obtain ⟨known, rfl⟩ := definition_rejected hopen hrun
    refine ⟨.inl ⟨read, back, hfront, hback⟩, ?_⟩
    rw [hs₂.only]
    refine ⟨rfl, rfl, rfl, fun hclosing => ?_⟩
    obtain ⟨t, ht, hclose⟩ := h.closes_early hheader hfront hback fun hnil => hsemicolon (hcurrent.2 hnil)
    rw [hclosing t ht] at hclose
    cases hclose

/-- A rejection is recorded, and reading goes on where `skip` says. -/
theorem recovering_rejected {p : Parser Unit} {skip : List Token → List Token → List Token}
    {s s₁ : State} {r : Rejection} (h : p.run s = .rejected r s₁) :
    (Parser.recovering p skip).run s =
      .ok () { s₁ with issues := s₁.issues ++ [.rejected r], rest := skip s.rest s₁.rest } := by
  unfold Parser.recovering
  rw [Parser.run_get_bind]
  simp [Parser.attempt, h, Parser.report, Parser.record, Parser.modify]

/-- **A rejected prototype costs nothing but itself, if it is rejected in front of its semicolon.** The
round that rejects it records one issue and adds no object; as long as there is one closing parenthesis
at the end, it leaves the table of signatures alone. If the semicolon was still to be read, the next
round starts right behind it. The only other case is that a global variable has the name of the
prototype: then the semicolon was already read, and what follows it is skipped like the rest of a
function that has no body yet. -/
theorem rejected_prototype {s s₁ : State} {r : Rejection}
    (h : PrototypeAhead s.rest front semicolon rest)
    (hrejected : Parser.function.run { s with scope := .empty } = .rejected r s₁) :
    ∃ s', Round s s' ∧
      (∀ budget, (Parser.objects (budget + 1)).run s = (Parser.objects budget).run s') ∧
      s'.issues = s.issues ++ [.rejected r] ∧ s'.objects = s.objects ∧ s'.pending = s.pending ∧
      ((∀ t ∈ front.dropLast, t.is ")" = false) → s'.signatures = s.signatures) ∧
      (s₁.rest ≠ rest → s'.rest = rest) ∧
      (s₁.rest = rest → s'.rest = skipBody false 0 rest ∧
        ∃ name, s.isGlobal name ∧ r.problem = .redefinition name) := by
  have hobject : Parser.object.run s = .ok ()
      { s₁ with issues := s₁.issues ++ [.rejected r], rest := skipFunction s.rest s₁.rest } := by
    unfold Parser.object
    rw [Parser.run_modify_bind, Parser.run_get_bind, if_pos h.starts]
    exact recovering_rejected hrejected
  obtain ⟨hplace, hissues, hobjects, hpending, hsignatures⟩ :=
    function_rejected (s := { s with scope := .empty }) h hrejected
  have hround := (⟨h.ne_nil, hobject⟩ : Round s _)
  refine ⟨_, hround, objects_round hround, congrArg (· ++ [.rejected r]) hissues, hobjects, hpending,
    hsignatures, ?_⟩
  have hbraces : ∀ t ∈ front, t.is "\x7b" = false ∧ t.is "\x7d" = false :=
    fun t ht => (h.plain t ht).2
  rcases hplace with ⟨read, back, hfront, hback⟩ | ⟨hrest, hglobal⟩
  · have hne : s₁.rest ≠ rest := by
      intro hrest
      have hlength := congrArg List.length (hback.symm.trans hrest)
      simp at hlength
      omega
    have hskip : skipFunction s.rest s₁.rest = rest := by
      rw [hfront] at hbraces
      rw [h.tokens, hback, hfront, List.append_assoc,
        skipFunction_append (List.forall_mem_append.1 hbraces).1]
      exact skipBody_semicolon h.ends fun t ht => h.plain t (by rw [hfront]; simp [ht])
    exact ⟨fun _ => hskip, fun hrest => absurd hrest hne⟩
  · refine ⟨fun hne => absurd hrest hne, fun _ => ⟨?_, hglobal⟩⟩
    have hread : s.rest = (front ++ [semicolon]) ++ rest := by rw [h.tokens]; simp
    show skipFunction s.rest s₁.rest = skipBody false 0 rest
    rw [hread, hrest]
    refine skipFunction_append (List.forall_mem_append.2 ⟨hbraces, ?_⟩) rest
    exact List.forall_mem_singleton.2 (no_brace_of_semicolon h.ends)

end

/-! ## Two prototypes -/

/-- The tokens of `int f(int a, int a)`. -/
def repeatedParameter : List Token :=
  [⟨.keyword, "int", none, ⟨1, 1⟩⟩, ⟨.ident, "f", none, ⟨1, 5⟩⟩, ⟨.punctuator, "(", none, ⟨1, 6⟩⟩,
    ⟨.keyword, "int", none, ⟨1, 7⟩⟩, ⟨.ident, "a", none, ⟨1, 11⟩⟩, ⟨.punctuator, ",", none, ⟨1, 12⟩⟩,
    ⟨.keyword, "int", none, ⟨1, 14⟩⟩, ⟨.ident, "a", none, ⟨1, 18⟩⟩,
    ⟨.punctuator, ")", none, ⟨1, 19⟩⟩]

/-- The tokens of `int x(int a)`. -/
def redeclaredGlobal : List Token :=
  [⟨.keyword, "int", none, ⟨1, 8⟩⟩, ⟨.ident, "x", none, ⟨1, 12⟩⟩, ⟨.punctuator, "(", none, ⟨1, 13⟩⟩,
    ⟨.keyword, "int", none, ⟨1, 14⟩⟩, ⟨.ident, "a", none, ⟨1, 18⟩⟩,
    ⟨.punctuator, ")", none, ⟨1, 19⟩⟩]

/-- The semicolon of both. -/
def prototypeEnd : Token := ⟨.punctuator, ";", none, ⟨1, 20⟩⟩

/-- The tokens of `int y;` behind it. -/
def nextDeclaration : List Token :=
  [⟨.keyword, "int", none, ⟨1, 22⟩⟩, ⟨.ident, "y", none, ⟨1, 26⟩⟩,
    ⟨.punctuator, ";", none, ⟨1, 27⟩⟩]

/-- A state in front of a prototype and the declaration behind it. -/
def beforePrototype (front : List Token) (objects : List Object) : State :=
  { State.ofTokens (front ++ prototypeEnd :: nextDeclaration) with objects := objects }

/-- Behind a prototype with a repeated parameter, the next declaration is read. -/
theorem repeatedParameter_costs_itself :
    ∃ r s₁ s', Parser.function.run { beforePrototype repeatedParameter [] with scope := .empty } =
        .rejected r s₁ ∧
      s₁.rest ≠ nextDeclaration ∧ Round (beforePrototype repeatedParameter []) s' ∧
      s'.issues = [.rejected r] ∧ s'.rest = nextDeclaration := by
  have hahead : PrototypeAhead (beforePrototype repeatedParameter []).rest repeatedParameter
      prototypeEnd nextDeclaration := ⟨by decide, by decide, by decide, by decide⟩
  have hrun : ∃ r s₁, Parser.function.run { beforePrototype repeatedParameter [] with scope := .empty } =
      .rejected r s₁ ∧ s₁.rest ≠ nextDeclaration := ⟨_, _, rfl, by decide⟩
  obtain ⟨r, s₁, hrejected, hne⟩ := hrun
  obtain ⟨s', hround, -, hissues, -, -, -, hrest, -⟩ := rejected_prototype hahead hrejected
  exact ⟨r, s₁, s', hrejected, hne, hround, hissues, hrest hne⟩

/-- Behind a prototype with the name of a global variable, the next declaration is lost. -/
theorem redeclaredGlobal_costs_more :
    (∃ r s₁ s', PrototypeAhead (beforePrototype redeclaredGlobal [.global ⟨"x", .int⟩]).rest
        redeclaredGlobal prototypeEnd nextDeclaration ∧
      Parser.function.run
        { beforePrototype redeclaredGlobal [.global ⟨"x", .int⟩] with scope := .empty } =
        .rejected r s₁ ∧
      Round (beforePrototype redeclaredGlobal [.global ⟨"x", .int⟩]) s' ∧ s'.rest ≠ nextDeclaration) ∧
    (parse (Source.tokenize "int x; int x(int a); int y;").tokens).toOption.map
      (fun parsed => parsed.program.objects.map Object.name) = some ["x"] := by
  refine ⟨⟨_, _, _, ⟨by decide, by decide, by decide, by decide⟩, rfl, ⟨by decide, rfl⟩, by decide⟩, ?_⟩
  decide +kernel

end WordC.Parse
