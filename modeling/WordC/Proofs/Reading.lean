import WordC.Parse.Objects
import WordC.Proofs.Tree

/-!
# What holds while a text is read

Facts about everything that is read are proved once for all readers. A `Discipline` says what is to
hold of states, trees, types, names and numbers, and which faults may happen; its laws say that each
single thing a reader does keeps to it.

* `State.Grows`: what can change while one object is read. Tokens are only dropped from the front,
  and locals, pending calls and issues are only added at the end.
* `Discipline`: the properties and the laws.
* `Discipline.Yields`: a reader that starts in a good state ends in a good state that the first one
  grows to, or with a fault that may happen.
-/
namespace WordC.Parse

/-! ## Growing states -/

/-- `s'` can come behind `s` while one object is read. -/
structure State.Grows (s s' : State) : Prop where
  rest : s'.rest <:+ s.rest
  objects : s'.objects = s.objects
  signatures : s'.signatures = s.signatures
  locals : s.scope.locals <+: s'.scope.locals
  pending : s.pending <+: s'.pending
  issues : s.issues <+: s'.issues

namespace State

variable {s s' s'' : State}

theorem Grows.refl (s : State) : s.Grows s :=
  ⟨List.suffix_refl _, rfl, rfl, List.prefix_refl _, List.prefix_refl _, List.prefix_refl _⟩

theorem Grows.trans (h : s.Grows s') (h' : s'.Grows s'') : s.Grows s'' where
  rest := h'.rest.trans h.rest
  objects := h'.objects.trans h.objects
  signatures := h'.signatures.trans h.signatures
  locals := h.locals.trans h'.locals
  pending := h.pending.trans h'.pending
  issues := h.issues.trans h'.issues

theorem Grows.length_le (h : s.Grows s') : s'.rest.length ≤ s.rest.length := h.rest.length_le

theorem Grows.read {rest : List Token} (h : rest <:+ s.rest) : s.Grows { s with rest := rest } :=
  { Grows.refl s with rest := h }

theorem Grows.record (s : State) (issues : List Issue) :
    s.Grows { s with issues := s.issues ++ issues } :=
  { Grows.refl s with issues := List.prefix_append _ _ }

theorem Grows.wait (s : State) (calls : List PendingCall) :
    s.Grows { s with pending := s.pending ++ calls } :=
  { Grows.refl s with pending := List.prefix_append _ _ }

theorem Grows.declare (s : State) (v : Local) (size : Int) :
    s.Grows { s with scope := ⟨s.scope.locals ++ [v], size⟩ } :=
  { Grows.refl s with locals := List.prefix_append _ _ }

/-- A token that is no end mark is the first of those left. -/
theorem rest_of_kind_ne (h : s.current.kind ≠ .eof) : ∃ ts, s.rest = s.current :: ts := by
  unfold current at h ⊢
  split
  · rename_i t ts hrest
    exact ⟨ts, hrest⟩
  · rename_i hrest
    rw [hrest] at h
    exact absurd rfl h

theorem rest_of_is {text : String} (h : s.current.is text) : ∃ ts, s.rest = s.current :: ts := by
  refine rest_of_kind_ne fun heof => ?_
  simp [Token.is, heof] at h

end State

/-! ## Readers in one step -/

namespace Parser

variable {α : Type} (s : State)

theorem run_get_bind (f : State → Parser α) : (get >>= f).run s = (f s).run s := rfl

theorem run_current_bind (f : Token → Parser α) : (current >>= f).run s = (f s.current).run s := rfl

theorem run_here_bind (f : Loc → Parser α) : (here >>= f).run s = (f s.current.loc).run s := rfl

theorem run_sees_bind (text : String) (f : Bool → Parser α) :
    (sees text >>= f).run s = (f (s.current.is text)).run s := rfl

theorem run_atEnd_bind (f : Bool → Parser α) : (atEnd >>= f).run s = (f s.rest.isEmpty).run s := rfl

theorem run_modify_bind (g : State → State) (f : Unit → Parser α) :
    (modify g >>= f).run s = (f ()).run (g s) := rfl

theorem run_accept (text : String) :
    (accept text).run s =
      if s.current.is text then .ok true { s with rest := s.rest.tail } else .ok false s := by
  unfold accept
  rw [run_sees_bind]
  split <;> rfl

end Parser

/-- All stars in front are read. -/
theorem pointersFrom_rest (ts : List Token) (ty : Ty) :
    (pointersFrom ty ts).2 = ts.dropWhile (·.is "*") := by
  induction ts generalizing ty with
  | nil => rfl
  | cons t ts ih =>
    by_cases hstar : t.is "*" <;> simp [pointersFrom, hstar, ih]

/-- The call was checked against a signature, or it waits for one. -/
def State.Checked (s : State) (callee : String) (args : List Expr) (loc : Loc) : Prop :=
  match s.signatures.find? callee with
  | some signature => args.length = signature.params.length
  | none => ⟨callee, args.map fun arg => ⟨arg.ty, arg.loc⟩, loc⟩ ∈ s.pending

/-- The tokens start with a prototype of the function `name` with so many parameters: a header that
can be read in a new scope, and a semicolon behind it. -/
def Announces (ts : List Token) (name : String) (count : Nat) : Prop :=
  startsFunction ts ∧ ∃ s h s', s.rest = ts ∧ s.scope = .empty ∧ Parser.header.run s = .ok h s' ∧
    s'.current.is ";" ∧ h.name.text = name ∧ h.params.length = count

/-- The parameters are the first locals, and none of them is an array. -/
def Scope.OpensWith (scope : Scope) (params : List Local) : Prop :=
  params <+: scope.locals ∧ ∀ v ∈ params, v.ty.isArray = false

/-! ## Disciplines -/

/-- Properties of what is read, and the laws by which reading keeps them. -/
structure Discipline where
  /-- Of the states between two steps. -/
  Inv : State → Prop
  /-- Of the expressions read so far. -/
  Tree : State → Expr → Prop
  /-- Of the types in declarations. -/
  Shape : Ty → Prop
  /-- Of the numbers in the text. -/
  Value : Int → Prop
  /-- Of the names in the text. -/
  Name : String → Prop
  Allowed : Fault → Prop
  value {s t ts v} : Inv s → s.rest = t :: ts → t.kind = .num → t.value = some v → Value v
  name {s t ts} : Inv s → s.rest = t :: ts → t.kind = .ident → Name t.lexeme
  read {s rest} : Inv s → rest <:+ s.rest → Inv { s with rest := rest }
  record {s} (issues) : Inv s → Inv { s with issues := s.issues ++ issues }
  wait {s} (c : PendingCall) : Inv s → s.signatures.find? c.callee = none →
    Inv { s with pending := s.pending ++ [c] }
  -- Expressions
  grows {s s' e} : Tree s e → s.Grows s' → Tree s' e
  num {s v loc} : Value v → Tree s (.mkNum v loc)
  sizeof {s e n loc} : Tree s e → e.ty.size = .ok n → Tree s (.mkNum n loc)
  sizeof_fault {s e f} : Tree s e → e.ty.size = .error f → Allowed f
  var {s x v loc} : Inv s → s.var? x = some v → Tree s (.mkVar v loc)
  unary {s op e e' loc} : Tree s e → (op = .addr → e.isLvalue) → Expr.mkUnary op e loc = .ok e' →
    Tree s e'
  binary {s lhs rhs e loc} (op : Operator) : Tree s lhs → Tree s rhs →
    op.build lhs rhs loc = .ok e → Tree s e
  binary_fault {s lhs rhs f loc} (op : Operator) : Tree s lhs → Tree s rhs →
    op.build lhs rhs loc = .error (.faulted f) → Allowed f
  assign {s lhs rhs e loc} : Tree s lhs → Tree s rhs → lhs.isLvalue →
    Expr.mkAssign lhs rhs loc = .ok e → Tree s e
  call {s callee args loc} : (∀ arg ∈ args, Tree s arg) → args.length ≤ maxArgs →
    s.Checked callee args loc → Tree s (.mkCall callee args loc)
  -- Declarations
  int : Shape .int
  ptr {ty} : Shape ty → Shape (.ptr ty)
  decay {ty} : Shape ty → Shape ty.decay
  array {ty len size bytes} : Shape ty → Value len → ty.size = .ok size →
    Word.mul size len = .ok bytes → Shape (.array ty len)
  size_fault {ty f} : Shape ty → ty.size = .error f → Allowed f
  enter {s} : Inv s → Inv { s with scope := .empty }
  declareLocal {s x ty size total offset} : Inv s → Name x → Shape ty → s.scope.find? x = none →
    ty.size = .ok size → Word.add s.scope.size size = .ok total → total ≤ maxFrame →
    Word.neg total = .ok offset →
    Inv { s with scope := ⟨s.scope.locals ++ [⟨x, ty, offset⟩], total⟩ }
  offset_fault {s ty size total f} : Inv s → Shape ty → ty.size = .ok size →
    Word.add s.scope.size size = .ok total → total ≤ maxFrame → Word.neg total = .error f → Allowed f
  -- Objects
  declare {start s x} (params) : Inv start → Announces start.rest x params.length → Inv s → Name x →
    s.isGlobal x = false → Inv { s with signatures := s.signatures.declare x params }
  define {s x} (params) : Inv s → Name x → s.signatures.isDefined x = false →
    s.isGlobal x = false → Inv { s with signatures := s.signatures.define x params }
  declareGlobal {s x ty} : Inv s → Name x → Shape ty → s.isGlobal x = false →
    s.signatures.contains x = false → Inv { s with objects := s.objects ++ [.global ⟨x, ty⟩] }
  defineFunction {s₀ s x body} (params result) : Inv s₀ → Name x →
    s₀.signatures.isDefined x = false → s₀.isGlobal x = false → s.objects = s₀.objects →
    s.signatures = s₀.signatures.define x (params.map Local.ty) → Inv s →
    s.scope.OpensWith params → (∀ e ∈ body.roots, Tree s e) →
    Inv { s with
      objects := s.objects ++
        [.function ⟨x, params, .func result, s.scope.locals, body, s.scope.size⟩] }

namespace Discipline

/-- How a reader may end that starts at `s`. -/
def Yields {α : Type} (D : Discipline) (s : State) (post : α → State → Prop) : Outcome α → Prop
  | .ok a s' => D.Inv s' ∧ s.Grows s' ∧ post a s'
  | .rejected _ s' => D.Inv s' ∧ s.Grows s'
  | .faulted f => D.Allowed f

namespace Yields

variable {α β : Type} {D : Discipline} {s s₁ : State} {p : Parser α} {f : α → Parser β}
  {q : α → State → Prop} {post : β → State → Prop}

theorem pure {a : β} (hs : D.Inv s) (h : post a s) : D.Yields s post ((Pure.pure a : Parser β).run s) :=
  ⟨hs, .refl s, h⟩

theorem reject {loc : Loc} {problem : Problem} (hs : D.Inv s) :
    D.Yields s post ((Parser.reject loc problem).run s) :=
  ⟨hs, .refl s⟩

/-- What is read from a later state is read from an earlier one. -/
theorem since {o : Outcome β} (h : s.Grows s₁) (ho : D.Yields s₁ post o) : D.Yields s post o := by
  cases o with
  | ok b s' => exact ⟨ho.1, h.trans ho.2.1, ho.2.2⟩
  | rejected r s' => exact ⟨ho.1, h.trans ho.2⟩
  | faulted fault => exact ho

theorem mono {o : Outcome α} {q' : α → State → Prop} (ho : D.Yields s q o)
    (h : ∀ a s', D.Inv s' → s.Grows s' → q a s' → q' a s') : D.Yields s q' o := by
  cases o with
  | ok a s' => exact ⟨ho.1, ho.2.1, h a s' ho.1 ho.2.1 ho.2.2⟩
  | rejected r s' => exact ho
  | faulted fault => exact ho

theorem bind (hp : D.Yields s q (p.run s))
    (hf : ∀ a s', D.Inv s' → s.Grows s' → q a s' → D.Yields s' post ((f a).run s')) :
    D.Yields s post ((p >>= f).run s) := by
  rw [Parser.run_bind]
  cases hrun : p.run s with
  | ok a s' =>
    rw [hrun] at hp
    obtain ⟨hs', hgrows, ha⟩ := hp
    exact since hgrows (hf a s' hs' hgrows ha)
  | rejected r s' => rw [hrun] at hp; exact hp
  | faulted fault => rw [hrun] at hp; exact hp

/-- A rejection that is taken for a result. -/
theorem attempt (hp : D.Yields s q (p.run s)) :
    D.Yields s (fun r s' => ∀ a, r = .ok a → q a s') (p.attempt.run s) := by
  cases hrun : p.run s with
  | ok a s' =>
    rw [hrun] at hp
    simp only [Parser.attempt, hrun]
    refine ⟨hp.1, hp.2.1, fun a' ha' => ?_⟩
    cases ha'
    exact hp.2.2
  | rejected r s' =>
    rw [hrun] at hp
    simp only [Parser.attempt, hrun]
    exact ⟨hp.1, hp.2, fun a ha => by cases ha⟩
  | faulted fault =>
    rw [hrun] at hp
    simp only [Parser.attempt, hrun]
    exact hp

theorem ofRejection {r : Except Rejection β} (hs : D.Inv s) (h : ∀ b, r = .ok b → post b s) :
    D.Yields s post ((Parser.ofRejection r).run s) := by
  cases r with
  | ok b => exact pure hs (h b rfl)
  | error r => exact ⟨hs, .refl s⟩

theorem ofFault {r : Except Fault β} (hs : D.Inv s) (h : ∀ b, r = .ok b → post b s)
    (hfault : ∀ fault, r = .error fault → D.Allowed fault) :
    D.Yields s post ((Parser.ofFault r).run s) := by
  cases r with
  | ok b => exact pure hs (h b rfl)
  | error fault => exact hfault fault rfl

theorem ofStop {r : Except Stop β} (hs : D.Inv s) (h : ∀ b, r = .ok b → post b s)
    (hfault : ∀ fault, r = .error (.faulted fault) → D.Allowed fault) :
    D.Yields s post ((Parser.ofStop r).run s) := by
  rcases r with (r | fault) | b
  · exact ⟨hs, .refl s⟩
  · exact hfault fault rfl
  · exact pure hs (h b rfl)

/-! ## Reading one token -/

/-- Going past the first token. -/
theorem advance {t : Token} {ts : List Token} (hs : D.Inv s) (h : s.rest = t :: ts) :
    D.Yields s (fun _ s' => s'.rest.length < s.rest.length) (Parser.advance.run s) := by
  have hrest : s.rest.tail <:+ s.rest := List.tail_suffix _
  refine ⟨D.read hs hrest, .read hrest, ?_⟩
  simp [h]

/-- A choice by the next token. -/
theorem acceptElse {text : String} {p q : Parser β} (hs : D.Inv s)
    (hp : ∀ s', D.Inv s' → s.Grows s' → s'.rest.length < s.rest.length →
      D.Yields s' post (p.run s'))
    (hq : D.Yields s post (q.run s)) :
    D.Yields s post ((Parser.accept text >>= fun b => if b = true then p else q).run s) := by
  rw [Parser.run_bind, Parser.run_accept]
  split
  · rename_i hb
    obtain ⟨ts, hrest⟩ := State.rest_of_is hb
    have htail : s.rest.tail <:+ s.rest := List.tail_suffix _
    have hlen : s.rest.tail.length < s.rest.length := by simp [hrest]
    exact since (.read htail) (hp _ (D.read hs htail) (.read htail) hlen)
  · exact hq

theorem expect (text : String) (hs : D.Inv s) :
    D.Yields s (fun _ s' => s'.rest.length < s.rest.length) ((Parser.expect text).run s) := by
  unfold Parser.expect
  refine acceptElse hs (fun s' hs' _ hlen => pure hs' hlen) ?_
  exact reject hs

theorem number (hs : D.Inv s) :
    D.Yields s (fun v s' => D.Value v ∧ s'.rest.length < s.rest.length) (Parser.number.run s) := by
  unfold Parser.number
  rw [Parser.run_current_bind]
  split
  · rename_i hkind
    obtain ⟨ts, hrest⟩ := State.rest_of_kind_ne (s := s) (by rw [hkind]; decide)
    split
    · rename_i v hv
      refine bind (advance hs hrest) fun _ s' hs' _ hlen => pure hs' ⟨?_, hlen⟩
      exact D.value hs hrest hkind hv
    · exact reject hs
  · exact reject hs

theorem identifier (hs : D.Inv s) :
    D.Yields s (fun x s' => D.Name x.text ∧ s'.rest.length < s.rest.length)
      (Parser.identifier.run s) := by
  unfold Parser.identifier
  rw [Parser.run_current_bind]
  split
  · rename_i hkind
    obtain ⟨ts, hrest⟩ := State.rest_of_kind_ne (s := s) (by rw [hkind]; decide)
    refine bind (advance hs hrest) fun _ s' hs' _ hlen => pure hs' ⟨?_, hlen⟩
    exact D.name hs hrest hkind
  · exact reject hs

/-! ## Records -/

theorem record (hs : D.Inv s) (issues : List Issue) :
    D.Yields s (fun _ s' => s'.rest = s.rest) ((Parser.record issues).run s) :=
  ⟨D.record issues hs, .record s issues, rfl⟩

end Yields

end Discipline

end WordC.Parse
