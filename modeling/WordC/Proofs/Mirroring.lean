import WordC.Proofs.Positions
import WordC.Proofs.Reading

/-!
# Things that differ in positions only

Two things mirror each other if only their positions tell them apart. Two readers do so if, started
in states that mirror each other, they end in such states, with results that are related or with the
same problem, or with the same fault.

* `Token.Mirrors`, `Expr.Mirrors`, `Stmt.Mirrors`: tokens and trees.
* `map_unplaced_resume`, `map_unplaced_skipFunction`: reading resumes at the same token after a
  rejection.
* `State.Mirrors`, `Outcome.Mirrors`, `Parser.Mirrors`: states, ends of runs and readers, with a
  rule for each way to put readers together and for each builder of trees.
-/
namespace WordC

/-! ## Tokens and trees -/

/-- The tokens agree in everything but their positions. -/
structure Token.Mirrors (t t' : Token) : Prop where
  kind : t.kind = t'.kind
  lexeme : t.lexeme = t'.lexeme
  value : t.value = t'.value

namespace Token

variable {t t' : Token}

theorem unplaced_eq_iff : t.unplaced = t'.unplaced ↔ t.Mirrors t' := by
  constructor
  · intro h
    simp only [unplaced, mk.injEq, and_true] at h
    exact ⟨h.1, h.2.1, h.2.2⟩
  · intro h
    rw [unplaced, unplaced, h.kind, h.lexeme, h.value]

theorem Mirrors.is (h : t.Mirrors t') (text : String) : t.is text = t'.is text := by
  rw [Token.is, Token.is, h.kind, h.lexeme]

theorem Mirrors.describe (h : t.Mirrors t') : t.describe = t'.describe := by
  rw [Token.describe, Token.describe, h.kind, h.lexeme]

end Token

/-- The expressions differ in their positions only. -/
def Expr.Mirrors (e e' : Expr) : Prop := e.unplaced = e'.unplaced

def Expr.MirrorsAll (es es' : List Expr) : Prop := unplacedAll es = unplacedAll es'

def Expr.MirrorsOption (e e' : Option Expr) : Prop := e.map unplaced = e'.map unplaced

namespace Expr.Mirrors

variable {e₁ e₂ e₁' e₂' : Expr} {es es' : List Expr}

theorem ty (h : e₁.Mirrors e₁') : e₁.ty = e₁'.ty := by
  rw [← e₁.ty_unplaced, h, e₁'.ty_unplaced]

theorem isLvalue (h : e₁.Mirrors e₁') : e₁.isLvalue = e₁'.isLvalue := by
  rw [← e₁.isLvalue_unplaced, h, e₁'.isLvalue_unplaced]

theorem some (h : e₁.Mirrors e₁') : MirrorsOption (some e₁) (some e₁') := congrArg Option.some h

theorem cons (h : e₁.Mirrors e₁') (hes : MirrorsAll es es') :
    MirrorsAll (e₁ :: es) (e₁' :: es') := by
  rw [MirrorsAll, unplacedAll, unplacedAll, h, hes]

variable (loc loc' : Loc)

theorem mkNum (value : Int) : (Expr.mkNum value loc).Mirrors (Expr.mkNum value loc') := by
  simp [Expr.Mirrors]

theorem mkVar (v : Var) : (Expr.mkVar v loc).Mirrors (Expr.mkVar v loc') := by
  simp [Expr.Mirrors]

theorem unary (op : UnaryOp) (ty : Ty) (h : e₁.Mirrors e₁') :
    (Expr.unary op e₁ ty loc).Mirrors (Expr.unary op e₁' ty loc') := by
  rw [Expr.Mirrors, unplaced, unplaced, h]

theorem binary (op : BinaryOp) (ty : Ty) (h₁ : e₁.Mirrors e₁') (h₂ : e₂.Mirrors e₂') :
    (Expr.binary op e₁ e₂ ty loc).Mirrors (Expr.binary op e₁' e₂' ty loc') := by
  rw [Expr.Mirrors, unplaced, unplaced, h₁, h₂]

theorem mkBinary (op : BinaryOp) (h₁ : e₁.Mirrors e₁') (h₂ : e₂.Mirrors e₂') :
    (Expr.mkBinary op e₁ e₂ loc).Mirrors (Expr.mkBinary op e₁' e₂' loc') := by
  rw [Expr.mkBinary, Expr.mkBinary, h₁.ty]
  exact binary loc loc' op _ h₁ h₂

theorem assign (ty : Ty) (h₁ : e₁.Mirrors e₁') (h₂ : e₂.Mirrors e₂') :
    (Expr.assign e₁ e₂ ty loc).Mirrors (Expr.assign e₁' e₂' ty loc') := by
  rw [Expr.Mirrors, unplaced, unplaced, h₁, h₂]

theorem mkCall (callee : String) (h : MirrorsAll es es') :
    (Expr.mkCall callee es loc).Mirrors (Expr.mkCall callee es' loc') := by
  rw [Expr.Mirrors, unplaced_mkCall, unplaced_mkCall, h]

end Expr.Mirrors

namespace Stmt

/-- The statements differ in the positions of their expressions only. -/
def Mirrors (s s' : Stmt) : Prop := s.unplaced = s'.unplaced

def MirrorsAll (ss ss' : List Stmt) : Prop := unplacedAll ss = unplacedAll ss'

variable {s s' body body' : Stmt} {cond cond' : Expr} {e e' step step' : Option Expr}
  {ss ss' more more' : List Stmt}

namespace Mirrors

theorem eval (h : Expr.MirrorsOption e e') : Mirrors (.eval e) (.eval e') := by
  rw [Mirrors, unplaced, unplaced, h]

theorem ret (h : Expr.MirrorsOption e e') : Mirrors (.ret e) (.ret e') := by
  rw [Mirrors, unplaced, unplaced, h]

theorem block (h : MirrorsAll ss ss') : Mirrors (.block ss) (.block ss') := by
  rw [Mirrors, unplaced, unplaced, h]

theorem ite (hcond : cond.Mirrors cond') (h : s.Mirrors s') :
    Mirrors (.ite cond s none) (.ite cond' s' none) := by
  rw [Mirrors, unplaced, unplaced, hcond, h]

theorem iteElse (hcond : cond.Mirrors cond') (h : s.Mirrors s') (hbody : body.Mirrors body') :
    Mirrors (.ite cond s (some body)) (.ite cond' s' (some body')) := by
  rw [Mirrors, unplaced, unplaced, hcond, h, hbody]

theorem whileLoop (he : Expr.MirrorsOption e e') (hbody : body.Mirrors body') :
    Mirrors (.loop none e none body) (.loop none e' none body') := by
  rw [Mirrors, unplaced, unplaced, he, hbody]

theorem forLoop (hs : s.Mirrors s') (he : Expr.MirrorsOption e e')
    (hstep : Expr.MirrorsOption step step') (hbody : body.Mirrors body') :
    Mirrors (.loop (some s) e step body) (.loop (some s') e' step' body') := by
  rw [Mirrors, unplaced, unplaced, hs, he, hstep, hbody]

theorem cons (h : s.Mirrors s') (hss : MirrorsAll ss ss') : MirrorsAll (s :: ss) (s' :: ss') := by
  rw [MirrorsAll, unplacedAll, unplacedAll, h, hss]

end Mirrors

theorem MirrorsAll.append (h : MirrorsAll ss ss') (hmore : MirrorsAll more more') :
    MirrorsAll (ss ++ more) (ss' ++ more') := by
  rw [MirrorsAll, unplacedAll_append, unplacedAll_append, h, hmore]

end Stmt

/-! ## Calls -/

namespace Argument

def unplaced (a : Argument) : Argument := { a with loc := .nowhere }

/-- Doubts about the types of arguments do not depend on where the arguments stand. -/
theorem map_unplaced_mismatches (callee : String) (args : List Argument) (params : List Ty)
    (index : Nat) :
    (mismatches callee index args params).map Issue.unplaced =
      mismatches callee index (args.map unplaced) params := by
  induction args generalizing index params with
  | nil => rfl
  | cons arg args ih =>
    cases params with
    | nil => rfl
    | cons param params =>
      simp only [List.map_cons, mismatches, unplaced]
      split
      · exact ih params (index + 1)
      · simp only [List.map_cons, Issue.unplaced, ih params (index + 1)]

theorem countProblem?_unplaced (callee : String) (args : List Argument) (params : List Ty) :
    countProblem? callee (args.map unplaced) params = countProblem? callee args params := by
  simp only [countProblem?, List.length_map]

end Argument

namespace PendingCall

def unplaced (c : PendingCall) : PendingCall := ⟨c.callee, c.args.map Argument.unplaced, .nowhere⟩

theorem map_unplaced_issues (table : Signatures) (c : PendingCall) :
    (c.issues table).map Issue.unplaced = c.unplaced.issues table := by
  simp only [issues, unplaced]
  cases table.find? c.callee with
  | none => rfl
  | some signature =>
    simp only [List.map_append, Argument.map_unplaced_mismatches, Argument.countProblem?_unplaced]
    cases Argument.countProblem? c.callee c.args signature.params <;> rfl

end PendingCall

/-! ## Where reading goes on -/

namespace Parse

theorem map_unplaced_seek {starts : Token → Bool} (hstarts : ∀ t, starts t.unplaced = starts t)
    (ts : List Token) (last : Option Token) :
    (seek starts last ts).map Token.unplaced =
      seek starts (last.map Token.unplaced) (ts.map Token.unplaced) := by
  induction ts generalizing last with
  | nil => rfl
  | cons t ts ih =>
    have hends : (last.map Token.unplaced).any ends = last.any ends := by
      cases last <;> rfl
    simp only [seek, List.map_cons, hends, hstarts]
    split
    · rfl
    · exact ih (some t)

theorem map_unplaced_consumed (start rest : List Token) :
    (consumed start rest).map Token.unplaced =
      consumed (start.map Token.unplaced) (rest.map Token.unplaced) := by
  simp only [consumed, List.map_take, List.length_map]

theorem map_unplaced_resume {starts : Token → Bool} (hstarts : ∀ t, starts t.unplaced = starts t)
    (start rest : List Token) :
    (resume starts start rest).map Token.unplaced =
      resume starts (start.map Token.unplaced) (rest.map Token.unplaced) := by
  simp only [resume, List.length_map]
  split
  · rw [map_unplaced_seek hstarts, List.head?_map, List.map_tail]
  · rw [map_unplaced_seek hstarts, ← map_unplaced_consumed, List.getLast?_map]

theorem map_unplaced_skipBody (ts : List Token) (opened : Bool) (depth : Int) :
    (skipBody opened depth ts).map Token.unplaced =
      skipBody opened depth (ts.map Token.unplaced) := by
  induction ts generalizing opened depth with
  | nil => rfl
  | cons t ts ih =>
    simp only [skipBody, List.map_cons, Token.is_unplaced, ← ih,
      apply_ite (List.map Token.unplaced)]

theorem map_unplaced_skipFunction (start rest : List Token) :
    (skipFunction start rest).map Token.unplaced =
      skipFunction (start.map Token.unplaced) (rest.map Token.unplaced) := by
  have hcount (text : String) : ((consumed start rest).map Token.unplaced).countP (·.is text) =
      (consumed start rest).countP (·.is text) := by
    rw [List.countP_map]
    rfl
  simp only [skipFunction, map_unplaced_skipBody, ← map_unplaced_consumed, hcount]

theorem pointersFrom_unplaced (ts : List Token) (ty : Ty) :
    pointersFrom ty (ts.map Token.unplaced) =
      ((pointersFrom ty ts).1, (pointersFrom ty ts).2.map Token.unplaced) := by
  induction ts generalizing ty with
  | nil => rfl
  | cons t ts ih =>
    by_cases h : t.is "*" <;> simp [pointersFrom, h, ih]

theorem startsFunction_unplaced (ts : List Token) :
    startsFunction (ts.map Token.unplaced) = startsFunction ts := by
  cases ts with
  | nil => rfl
  | cons t ts =>
    have hstars : (ts.map Token.unplaced).dropWhile (·.is "*") =
        (ts.dropWhile (·.is "*")).map Token.unplaced := by
      rw [List.dropWhile_map]
      rfl
    simp only [startsFunction, List.map_cons, Token.is_unplaced, hstars]
    generalize ts.dropWhile (·.is "*") = behind
    rcases behind with _ | ⟨name, _ | ⟨paren, more⟩⟩ <;> rfl

/-! ## States -/

/-- The states differ in positions only. -/
structure State.Mirrors (s t : State) : Prop where
  rest : s.rest.map Token.unplaced = t.rest.map Token.unplaced
  issues : s.issues.map Issue.unplaced = t.issues.map Issue.unplaced
  objects : s.objects.map Object.unplaced = t.objects.map Object.unplaced
  signatures : s.signatures = t.signatures
  pending : s.pending.map PendingCall.unplaced = t.pending.map PendingCall.unplaced
  scope : s.scope = t.scope

namespace State.Mirrors

variable {s t : State}

theorem length (h : s.Mirrors t) : s.rest.length = t.rest.length := by
  simpa using congrArg List.length h.rest

theorem isEmpty (h : s.Mirrors t) : s.rest.isEmpty = t.rest.isEmpty := by
  simpa using congrArg List.isEmpty h.rest

theorem current (h : s.Mirrors t) : s.current.Mirrors t.current := by
  have hrest := h.rest
  rw [← Token.unplaced_eq_iff]
  unfold State.current
  cases hs : s.rest with
  | nil =>
    cases ht : t.rest with
    | nil => rfl
    | cons b bs => simp [hs, ht] at hrest
  | cons a as =>
    cases ht : t.rest with
    | nil => simp [hs, ht] at hrest
    | cons b bs =>
      rw [hs, ht, List.map_cons, List.map_cons] at hrest
      exact (List.cons.inj hrest).1

theorem global? (h : s.Mirrors t) (name : String) : s.global? name = t.global? name := by
  have hglobals (u : State) : u.objects.filterMap Object.global? =
      (u.objects.map Object.unplaced).filterMap Object.global? := by
    simp only [List.filterMap_map, Function.comp_def, Object.global?_unplaced]
  rw [State.global?, State.global?, hglobals, hglobals, h.objects]

theorem isGlobal (h : s.Mirrors t) (name : String) : s.isGlobal name = t.isGlobal name := by
  rw [State.isGlobal, State.isGlobal, h.global?]

theorem var? (h : s.Mirrors t) (name : String) : s.var? name = t.var? name := by
  rw [State.var?, State.var?, h.scope, h.global?]

/-- Both go on behind tokens that differ in positions only. -/
theorem read (h : s.Mirrors t) {rest rest' : List Token}
    (hrest : rest.map Token.unplaced = rest'.map Token.unplaced) :
    State.Mirrors { s with rest := rest } { t with rest := rest' } :=
  { h with rest := hrest }

theorem tail (h : s.Mirrors t) :
    State.Mirrors { s with rest := s.rest.tail } { t with rest := t.rest.tail } :=
  h.read (by rw [List.map_tail, List.map_tail, h.rest])

end State.Mirrors

/-! ## Readers -/

variable {α β γ δ : Type} {R : α → γ → Prop} {S : β → δ → Prop}

/-- Both runs end with results related by `R`, with one problem, or with one fault. -/
inductive Outcome.Mirrors (R : α → γ → Prop) : Outcome α → Outcome γ → Prop
  | ok {a b s t} : R a b → s.Mirrors t → Outcome.Mirrors R (.ok a s) (.ok b t)
  | rejected {r r' s t} : r.problem = r'.problem → s.Mirrors t →
    Outcome.Mirrors R (.rejected r s) (.rejected r' t)
  | faulted (f) : Outcome.Mirrors R (.faulted f) (.faulted f)

namespace Parser

/-- From states that differ in positions only, the readers end in the same way. -/
def Mirrors (R : α → γ → Prop) (p : Parser α) (q : Parser γ) : Prop :=
  ∀ s t, s.Mirrors t → Outcome.Mirrors R (p.run s) (q.run t)

/-- The names are the same, wherever they stand. -/
structure Name.Mirrors (n n' : Name) : Prop where
  text : n.text = n'.text

namespace Mirrors

variable {p : Parser α} {q : Parser γ} {f : α → Parser β} {g : γ → Parser δ}

theorem pure {a : α} {b : γ} (h : R a b) : Mirrors R (Pure.pure a) (Pure.pure b) :=
  fun _ _ hst => .ok h hst

theorem fault (f : Fault) : Mirrors R (Parser.fault f) (Parser.fault f) :=
  fun _ _ _ => .faulted f

theorem rejectWith {r r' : Rejection} (h : r.problem = r'.problem) :
    Mirrors R (Parser.rejectWith r) (Parser.rejectWith r') :=
  fun _ _ hst => .rejected h hst

theorem reject (loc loc' : Loc) (problem : Problem) :
    Mirrors R (Parser.reject loc problem) (Parser.reject loc' problem) :=
  rejectWith rfl

theorem bind (hp : Mirrors R p q) (hf : ∀ a b, R a b → Mirrors S (f a) (g b)) :
    Mirrors S (p >>= f) (q >>= g) := by
  intro s t hst
  have hrun := hp s t hst
  rw [run_bind, run_bind]
  generalize p.run s = o at hrun
  generalize q.run t = o' at hrun
  cases hrun with
  | ok hab hst' => exact hf _ _ hab _ _ hst'
  | rejected hr hst' => exact .rejected hr hst'
  | faulted fault => exact .faulted fault

/-- A rejection is a result here, so both go on. -/
theorem attempt {f : Except Rejection α → Parser β} {g : Except Rejection γ → Parser δ}
    (hp : Mirrors R p q) (hok : ∀ a b, R a b → Mirrors S (f (.ok a)) (g (.ok b)))
    (herror : ∀ r r', r.problem = r'.problem → Mirrors S (f (.error r)) (g (.error r'))) :
    Mirrors S (p.attempt >>= f) (q.attempt >>= g) := by
  intro s t hst
  have hrun := hp s t hst
  rw [run_bind, run_bind]
  unfold Parser.attempt
  dsimp only
  generalize p.run s = o at hrun
  generalize q.run t = o' at hrun
  cases hrun with
  | ok hab hst' => exact hok _ _ hab _ _ hst'
  | rejected hr hst' => exact herror _ _ hr _ _ hst'
  | faulted fault => exact .faulted fault

theorem ite {c c' : Prop} [Decidable c] [Decidable c'] {p₁ p₂ : Parser α} {q₁ q₂ : Parser γ}
    (hc : c ↔ c') (h₁ : Mirrors R p₁ q₁) (h₂ : Mirrors R p₂ q₂) :
    Mirrors R (if c then p₁ else p₂) (if c' then q₁ else q₂) := by
  by_cases h : c
  · rwa [if_pos h, if_pos (hc.1 h)]
  · rwa [if_neg h, if_neg (mt hc.2 h)]

theorem get {f : State → Parser α} {g : State → Parser γ}
    (h : ∀ s t, s.Mirrors t → Mirrors R (f s) (g t)) :
    Mirrors R (Parser.get >>= f) (Parser.get >>= g) :=
  fun s t hst => h s t hst s t hst

theorem modify {f g : State → State} (h : ∀ s t, s.Mirrors t → (f s).Mirrors (g t)) :
    Mirrors Eq (Parser.modify f) (Parser.modify g) :=
  fun s t hst => .ok rfl (h s t hst)

theorem record {issues issues' : List Issue}
    (h : issues.map Issue.unplaced = issues'.map Issue.unplaced) :
    Mirrors Eq (Parser.record issues) (Parser.record issues') :=
  modify fun s t hst => { hst with issues := by simp only [List.map_append, hst.issues, h] }

theorem report {r r' : Rejection} (h : r.problem = r'.problem) :
    Mirrors Eq (Parser.report r) (Parser.report r') :=
  record (by simp [Issue.unplaced, h])

theorem ofFault (r : Except Fault α) : Mirrors Eq (Parser.ofFault r) (Parser.ofFault r) := by
  cases r with
  | ok a => exact pure rfl
  | error f => exact fault f

/-! ## Reading one token -/

theorem current : Mirrors Token.Mirrors current current :=
  fun _ _ hst => .ok hst.current hst

theorem here : Mirrors (fun _ _ => True) here here := fun _ _ hst => .ok trivial hst

theorem sees (text : String) : Mirrors Eq (sees text) (sees text) :=
  fun _ _ hst => .ok (hst.current.is text) hst

theorem atEnd : Mirrors Eq atEnd atEnd := fun _ _ hst => .ok hst.isEmpty hst

theorem advance : Mirrors Eq advance advance := modify fun _ _ hst => hst.tail

theorem seesElse {text : String} {p₁ p₂ : Parser α} {q₁ q₂ : Parser γ}
    (h₁ : Mirrors R p₁ q₁) (h₂ : Mirrors R p₂ q₂) :
    Mirrors R (Parser.sees text >>= fun b => if b = true then p₁ else p₂)
      (Parser.sees text >>= fun b => if b = true then q₁ else q₂) := by
  refine (sees text).bind fun b b' hb => ?_
  exact ite (by rw [hb]) h₁ h₂

theorem accept (text : String) : Mirrors Eq (accept text) (accept text) := by
  refine seesElse ?_ (pure rfl)
  exact advance.bind fun _ _ _ => pure rfl

theorem acceptElse {text : String} {p₁ p₂ : Parser α} {q₁ q₂ : Parser γ}
    (h₁ : Mirrors R p₁ q₁) (h₂ : Mirrors R p₂ q₂) :
    Mirrors R (Parser.accept text >>= fun b => if b = true then p₁ else p₂)
      (Parser.accept text >>= fun b => if b = true then q₁ else q₂) := by
  refine (accept text).bind fun b b' hb => ?_
  exact ite (by rw [hb]) h₁ h₂

theorem expect (text : String) : Mirrors Eq (expect text) (expect text) := by
  refine acceptElse (pure rfl) ?_
  refine current.bind fun token token' htoken => ?_
  rw [htoken.describe]
  exact reject _ _ _

theorem number : Mirrors Eq number number := by
  refine current.bind fun token token' htoken => ?_
  rw [htoken.kind, htoken.value, htoken.describe]
  refine ite Iff.rfl ?_ (reject _ _ _)
  split
  · exact advance.bind fun _ _ _ => pure rfl
  · exact reject _ _ _

theorem identifier : Mirrors Name.Mirrors identifier identifier := by
  refine current.bind fun token token' htoken => ?_
  rw [htoken.kind, htoken.describe]
  refine ite Iff.rfl ?_ (reject _ _ _)
  exact advance.bind fun _ _ _ => pure ⟨htoken.lexeme⟩

variable {e₁ e₂ e₁' e₂' : Expr} {loc loc' : Loc}

/-! ## Building trees -/

theorem mkUnary (op : UnaryOp) (h : e₁.Mirrors e₁') :
    Mirrors Expr.Mirrors (ofRejection (Expr.mkUnary op e₁ loc))
      (ofRejection (Expr.mkUnary op e₁' loc')) := by
  unfold Expr.mkUnary
  rw [h.ty]
  cases op with
  | neg => exact pure (.unary _ _ _ _ h)
  | addr => exact pure (.unary _ _ _ _ h)
  | deref =>
    dsimp only
    split
    · exact pure (.unary _ _ _ _ h)
    · exact rejectWith rfl

theorem mkAssign (h₁ : e₁.Mirrors e₁') (h₂ : e₂.Mirrors e₂') :
    Mirrors Expr.Mirrors (ofRejection (Expr.mkAssign e₁ e₂ loc))
      (ofRejection (Expr.mkAssign e₁' e₂' loc')) := by
  unfold Expr.mkAssign
  rw [h₁.ty]
  split
  · exact rejectWith rfl
  · exact pure (.assign _ _ _ h₁ h₂)

theorem step (op : BinaryOp) (h₁ : e₁.Mirrors e₁') (h₂ : e₂.Mirrors e₂') :
    Mirrors Expr.Mirrors (ofStop (Expr.step op e₁ e₂ loc))
      (ofStop (Expr.step op e₁' e₂' loc')) := by
  unfold Expr.step Expr.scale
  rw [h₁.ty]
  cases e₁'.ty.stride with
  | ok size => exact pure (.mkBinary _ _ op h₁ (.mkBinary _ _ .mul h₂ (.mkNum _ _ size)))
  | error f => exact fault f

theorem distance (h₁ : e₁.Mirrors e₁') (h₂ : e₂.Mirrors e₂') :
    Mirrors Expr.Mirrors (ofStop (Expr.distance e₁ e₂ loc))
      (ofStop (Expr.distance e₁' e₂' loc')) := by
  unfold Expr.distance
  rw [h₁.ty]
  cases e₁'.ty.stride with
  | ok size => exact pure (.mkBinary _ _ .div (.binary _ _ .sub .int h₁ h₂) (.mkNum _ _ size))
  | error f => exact fault f

theorem plus (h₁ : e₁.Mirrors e₁') (h₂ : e₂.Mirrors e₂') :
    Mirrors Expr.Mirrors (ofStop (Expr.plus e₁ e₂ loc)) (ofStop (Expr.plus e₁' e₂' loc')) := by
  unfold Expr.plus
  rw [h₁.ty, h₂.ty]
  cases e₁'.ty.isPointer <;> cases e₂'.ty.isPointer
  · exact pure (.mkBinary _ _ .add h₁ h₂)
  · exact step .add h₂ h₁
  · exact step .add h₁ h₂
  · exact rejectWith rfl

theorem minus (h₁ : e₁.Mirrors e₁') (h₂ : e₂.Mirrors e₂') :
    Mirrors Expr.Mirrors (ofStop (Expr.minus e₁ e₂ loc)) (ofStop (Expr.minus e₁' e₂' loc')) := by
  unfold Expr.minus
  rw [h₁.ty, h₂.ty]
  cases e₁'.ty.isPointer <;> cases e₂'.ty.isPointer
  · exact pure (.mkBinary _ _ .sub h₁ h₂)
  · exact rejectWith rfl
  · exact step .sub h₁ h₂
  · exact distance h₁ h₂

theorem build (op : Operator) (h₁ : e₁.Mirrors e₁') (h₂ : e₂.Mirrors e₂') :
    Mirrors Expr.Mirrors (ofStop (op.build e₁ e₂ loc)) (ofStop (op.build e₁' e₂' loc')) := by
  cases op with
  | add => exact plus h₁ h₂
  | sub => exact minus h₁ h₂
  | gt | ge => exact pure (.mkBinary _ _ _ h₂ h₁)
  | eq | ne | lt | le | mul | div => exact pure (.mkBinary _ _ _ h₁ h₂)

/-! ## Names and calls -/

theorem checkCall (callee : String) {args args' : List Argument}
    (h : args.map Argument.unplaced = args'.map Argument.unplaced) :
    Mirrors Eq (checkCall callee args loc) (checkCall callee args' loc') := by
  refine get fun s t hst => ?_
  rw [hst.signatures]
  split
  · rename_i signature hfind
    refine (record ?_).bind fun _ _ _ => ?_
    · rw [Argument.map_unplaced_mismatches, Argument.map_unplaced_mismatches, h]
    · rw [← Argument.countProblem?_unplaced, h, Argument.countProblem?_unplaced]
      split
      · exact reject _ _ _
      · exact pure rfl
  · refine modify fun s t hst => { hst with pending := ?_ }
    simp only [List.map_append, hst.pending, List.map_cons, PendingCall.unplaced, h]

/-- What is known of the arguments of a call does not depend on where they stand. -/
theorem arguments_eq {args args' : List Expr} (h : Expr.MirrorsAll args args') :
    (args.map fun arg => (⟨arg.ty, arg.loc⟩ : Argument)).map Argument.unplaced =
      (args'.map fun arg => (⟨arg.ty, arg.loc⟩ : Argument)).map Argument.unplaced := by
  have hargs (es : List Expr) : (es.map fun e => (⟨e.ty, e.loc⟩ : Argument)).map Argument.unplaced =
      (Expr.unplacedAll es).map fun e => ⟨e.ty, .nowhere⟩ := by
    induction es with
    | nil => rfl
    | cons e es ih => simp [Argument.unplaced, ih]
  rw [hargs, hargs, h]

theorem callOf (callee : String) {args args' : List Expr}
    (h : Expr.MirrorsAll args args') :
    Mirrors Expr.Mirrors (callOf callee args loc) (callOf callee args' loc') := by
  have hlength : args.length = args'.length := by
    rw [← Expr.length_unplacedAll, h, Expr.length_unplacedAll]
  refine ite (by rw [hlength]) (reject _ _ _) ?_
  exact (checkCall callee (arguments_eq h)).bind fun _ _ _ => pure (.mkCall _ _ callee h)

theorem variableOf {token token' : Token} (h : token.Mirrors token') :
    Mirrors Expr.Mirrors (variableOf token) (variableOf token') := by
  refine get fun s t hst => ?_
  rw [hst.var?, h.lexeme]
  split
  · exact pure (.mkVar _ _ _)
  · exact reject _ _ _

end Mirrors

end Parser

end Parse

end WordC
