import WordC.Proofs.Names
import WordC.Proofs.Safety

/-!
# Calls and the number of their arguments

A call is checked where it is read, against what is known of its callee there, or at the end of the
text if nothing is. A definition may come in between and replace what was known, so two counts can be
right for a call: that of the definition, and that of a prototype.

* `Expr.Calls`: what holds of all calls in a tree.
* `Parse.Announced`: a prototype in the text announces so many parameters.
* `Parse.State.Admits`: the calls that nothing speaks against; `Parse.admitting` is the discipline
  under which only those are read.
* `compile_calls_matched`: in an accepted text, a call of one of its own functions has as many
  arguments as the function has parameters, or as many as a prototype of it announces.
* `reannounced_miscalled`: the second does happen without the first.
-/
namespace WordC

/-! ## The calls in a tree -/

namespace Expr

/-- The callee of a call and how many arguments it is given. -/
def call? : Expr → Option (String × Nat)
  | call callee args _ _ => some (callee, args.length)
  | _ => none

/-- All calls in the tree are of the given kind. -/
def Calls (P : String × Nat → Prop) (e : Expr) : Prop := ∀ n ∈ e.nodes, ∀ c ∈ n.call?, P c

namespace Calls

variable {P Q : String × Nat → Prop} {e lhs rhs : Expr} {loc : Loc}

theorem mono (h : e.Calls P) (hPQ : ∀ c, P c → Q c) : e.Calls Q :=
  fun n hn c hc => hPQ c (h n hn c hc)

/-- Nodes below the root are nodes of the operands. -/
theorem node (hroot : ∀ c ∈ e.call?, P c) (hchildren : ∀ o ∈ e.children, o.Calls P) : e.Calls P := by
  intro n hn
  rcases mem_nodes.1 hn with rfl | ⟨o, ho, hn⟩
  · exact hroot
  · exact hchildren o ho n hn

theorem mkNum (value : Int) : (Expr.mkNum value loc).Calls P :=
  node (fun _ hc => by cases hc) (List.forall_mem_nil _)

theorem mkVar (v : Var) : (Expr.mkVar v loc).Calls P :=
  node (fun _ hc => by cases hc) (List.forall_mem_nil _)

theorem unary (op : UnaryOp) (ty : Ty) (h : e.Calls P) : (Expr.unary op e ty loc).Calls P :=
  node (fun _ hc => by cases hc) (List.forall_mem_singleton.2 h)

theorem mkUnary {op : UnaryOp} {e' : Expr} (h : e.Calls P) (he' : Expr.mkUnary op e loc = .ok e') :
    e'.Calls P := by
  cases op with
  | neg => cases he'; exact h.unary .neg _
  | addr => cases he'; exact h.unary .addr _
  | deref =>
    simp only [Expr.mkUnary] at he'
    split at he'
    · cases he'
      exact h.unary .deref _
    · cases he'

theorem binary (op : BinaryOp) (ty : Ty) (hl : lhs.Calls P) (hr : rhs.Calls P) :
    (Expr.binary op lhs rhs ty loc).Calls P :=
  node (fun _ hc => by cases hc) (List.forall_mem_cons.2 ⟨hl, List.forall_mem_singleton.2 hr⟩)

theorem mkAssign (hl : lhs.Calls P) (hr : rhs.Calls P) (he : Expr.mkAssign lhs rhs loc = .ok e) :
    e.Calls P := by
  unfold Expr.mkAssign at he
  split at he
  · cases he
  · cases he
    exact node (fun _ hc => by cases hc) (List.forall_mem_cons.2 ⟨hl, List.forall_mem_singleton.2 hr⟩)

theorem mkCall {callee : String} {args : List Expr} (h : P (callee, args.length))
    (hargs : ∀ arg ∈ args, arg.Calls P) : (Expr.mkCall callee args loc).Calls P := by
  refine node (fun c hc => ?_) hargs
  cases hc
  exact h

theorem combines (hl : lhs.Calls P) (hr : rhs.Calls P) (h : Parse.Combines lhs rhs loc e) :
    e.Calls P := by
  cases h with
  | other op => exact hl.binary op _ hr
  | plain op => exact hl.binary op _ hr
  | step op => exact hl.binary op _ (hr.binary .mul _ (mkNum _))
  | distance => exact (hl.binary .sub _ hr).binary .div _ (mkNum _)

/-- Operators build no calls of their own. -/
theorem build {op : Parse.Operator} (hl : lhs.Calls P) (hr : rhs.Calls P)
    (h : op.build lhs rhs loc = .ok e) : e.Calls P := by
  rcases Parse.Operator.build_ok h with h | h
  · exact hl.combines hr h
  · exact hr.combines hl h

end Calls

end Expr

/-- The calls in a statement. -/
def Stmt.calls (s : Stmt) : List (String × Nat) := s.nodes.filterMap Expr.call?

/-! ## Calls that may stand -/

namespace Parse

/-- One of the tokens starts a prototype of `name` with so many parameters. -/
def Announced (tokens : List Token) (name : String) (count : Nat) : Prop :=
  ∃ ts, ts <:+ (State.ofTokens tokens).rest ∧ Announces ts name count

/-- The call waits, fits what is known of its callee, or fits a prototype among the tokens. -/
def State.Admits (tokens : List Token) (s : State) (c : String × Nat) : Prop :=
  (∃ p ∈ s.pending, p.callee = c.1 ∧ p.args.length = c.2) ∨
  (∃ signature, s.signatures.find? c.1 = some signature ∧ signature.params.length = c.2) ∨
  Announced tokens c.1 c.2

/-- Functions that are only announced are announced among the tokens, and all calls may stand. -/
structure State.Admitting (tokens : List Token) (s : State) : Prop where
  rest : s.rest <:+ (State.ofTokens tokens).rest
  announced : ∀ x signature, s.signatures.find? x = some signature → signature.defined = false →
    Announced tokens x signature.params.length
  bodies : ∀ f, .function f ∈ s.objects → ∀ e ∈ f.body.roots, e.Calls (s.Admits tokens)

namespace State

variable {tokens : List Token} {s s' : State} {x : String} {c : String × Nat}

theorem Admits.wait (h : s.Admits tokens c) (p : PendingCall) :
    State.Admits tokens { s with pending := s.pending ++ [p] } c :=
  h.imp_left fun ⟨q, hq, hfits⟩ => ⟨q, List.mem_append_left _ hq, hfits⟩

theorem Admits.grows (h : s.Admits tokens c) (hgrows : s.Grows s') : s'.Admits tokens c := by
  rcases h with ⟨p, hp, hfits⟩ | ⟨signature, hfind, hcount⟩ | hannounced
  · exact .inl ⟨p, hgrows.pending.subset hp, hfits⟩
  · exact .inr (.inl ⟨signature, by rw [hgrows.signatures]; exact hfind, hcount⟩)
  · exact .inr (.inr hannounced)

theorem Admits.declare (h : s.Admits tokens c) (params : List Ty) :
    State.Admits tokens { s with signatures := s.signatures.declare x params } c := by
  refine h.imp_right (Or.imp_left ?_)
  rintro ⟨signature, hfind, hcount⟩
  refine ⟨signature, ?_, hcount⟩
  rw [Signatures.find?_declare]
  split
  · rename_i hx
    rw [← hx, hfind]
    rfl
  · exact hfind

/-- What a definition replaces was announced. -/
theorem Admits.define (h : s.Admits tokens c) (hs : s.Admitting tokens) (params : List Ty)
    (hx : s.signatures.isDefined x = false) :
    State.Admits tokens { s with signatures := s.signatures.define x params } c := by
  rcases h with hpending | ⟨signature, hfind, hcount⟩ | hannounced
  · exact .inl hpending
  · by_cases hc : c.1 = x
    · rw [hc] at hfind
      have hundefined : signature.defined = false := by simpa [Signatures.isDefined, hfind] using hx
      have := hs.announced x signature hfind hundefined
      rw [hcount, ← hc] at this
      exact .inr (.inr this)
    · refine .inr (.inl ⟨signature, ?_, hcount⟩)
      rw [Signatures.find?_define, if_neg hc]
      exact hfind
  · exact .inr (.inr hannounced)

namespace Admitting

theorem declare {start : State} (h : s.Admitting tokens) (hstart : start.Admitting tokens)
    (params : List Ty) (hannounces : Announces start.rest x params.length) :
    State.Admitting tokens { s with signatures := s.signatures.declare x params } where
  rest := h.rest
  announced y signature hfind hundefined := by
    rw [Signatures.find?_declare] at hfind
    split at hfind
    · rename_i hy
      cases hx : s.signatures.find? x with
      | some known =>
        rw [hx] at hfind
        cases hfind
        rw [hy]
        exact h.announced x known hx hundefined
      | none =>
        rw [hx] at hfind
        cases hfind
        rw [hy]
        exact ⟨start.rest, hstart.rest, hannounces⟩
    · exact h.announced y signature hfind hundefined
  bodies f hf e he := (h.bodies f hf e he).mono fun _ hc => hc.declare params

theorem define (h : s.Admitting tokens) (params : List Ty)
    (hx : s.signatures.isDefined x = false) :
    State.Admitting tokens { s with signatures := s.signatures.define x params } where
  rest := h.rest
  announced y signature hfind hundefined := by
    rw [Signatures.find?_define] at hfind
    split at hfind
    · cases hfind
      cases hundefined
    · exact h.announced y signature hfind hundefined
  bodies f hf e he := (h.bodies f hf e he).mono fun _ hc => hc.define h params hx

theorem addObject (h : s.Admitting tokens) {o : Object}
    (ho : ∀ f, o = .function f → ∀ e ∈ f.body.roots, e.Calls (s.Admits tokens)) :
    State.Admitting tokens { s with objects := s.objects ++ [o] } where
  rest := h.rest
  announced := h.announced
  bodies f hf := by
    rcases List.mem_append.1 hf with hf | hf
    · exact h.bodies f hf
    · exact ho f (List.mem_singleton.1 hf).symm

end Admitting

theorem Checked.admits {callee : String} {args : List Expr} {loc : Loc}
    (h : s.Checked callee args loc) : s.Admits tokens (callee, args.length) := by
  unfold State.Checked at h
  split at h
  · rename_i signature hfind
    exact .inr (.inl ⟨signature, hfind, h.symm⟩)
  · exact .inl ⟨_, h, rfl, List.length_map _⟩

end State

/-- Reading only calls that may stand, whatever faults there are. -/
def admitting (tokens : List Token) : Discipline where
  Inv := State.Admitting tokens
  Tree s e := e.Calls (s.Admits tokens)
  Shape _ := True
  Value _ := True
  Name _ := True
  Allowed _ := True
  value _ _ _ _ := trivial
  name _ _ _ := trivial
  read hs hrest := { hs with rest := hrest.trans hs.rest }
  record _ hs := { hs with }
  wait p hs _ :=
    { hs with bodies := fun f hf e he => (hs.bodies f hf e he).mono fun _ hc => hc.wait p }
  grows he hgrows := he.mono fun _ hc => hc.grows hgrows
  num _ := .mkNum _
  sizeof _ _ := .mkNum _
  sizeof_fault _ _ := trivial
  var _ _ := .mkVar _
  unary he _ he' := he.mkUnary he'
  binary _ hl hr he := hl.build hr he
  binary_fault _ _ _ _ := trivial
  assign hl hr _ he := hl.mkAssign hr he
  call hargs _ hchecked := .mkCall hchecked.admits hargs
  int := trivial
  ptr _ := trivial
  decay _ := trivial
  array _ _ _ _ := trivial
  size_fault _ _ := trivial
  enter hs := { hs with }
  declareLocal hs _ _ _ _ _ _ _ := { hs with }
  offset_fault _ _ _ _ _ _ := trivial
  declare params hstart hannounces hs _ _ := hs.declare hstart params hannounces
  define params hs _ hx _ := hs.define params hx
  declareGlobal hs _ _ _ _ := hs.addObject fun f hf => by cases hf
  defineFunction _ _ _ _ _ _ _ _ hs _ hbody := hs.addObject fun f hf => by
    cases hf
    exact hbody

/-! ## Accepted texts -/

/-- A call that waited without being rejected fits what is known at the end. -/
theorem length_of_pending {table : Signatures} {p : PendingCall} {signature : Signature}
    (h : ∀ issue ∈ p.issues table, issue.isFatal = false)
    (hfind : table.find? p.callee = some signature) : p.args.length = signature.params.length := by
  unfold PendingCall.issues at h
  simp only [hfind, List.forall_mem_append] at h
  have hnone := h.2
  unfold Argument.countProblem? at hnone
  split at hnone
  · simp [Issue.isFatal] at hnone
  · split at hnone
    · simp [Issue.isFatal] at hnone
    · omega

/-- In what was read without errors, a call of a function that was read fits its definition or one of
its prototypes. -/
theorem parse_calls {tokens : List Token} {parsed : Parsed} (htokens : Spelled tokens)
    (h : parse tokens = .ok parsed) (hissues : ∀ issue ∈ parsed.issues, issue.isFatal = false)
    {f g : Function} (hf : .function f ∈ parsed.program.objects)
    (hg : .function g ∈ parsed.program.objects) {count : Nat}
    (hcall : (f.name, count) ∈ g.body.calls) :
    count = f.arity ∨ Announced tokens f.name count := by
  obtain ⟨-, -, hknown⟩ := parse_named htokens h
  have hinit : (admitting tokens).Inv (.ofTokens tokens) :=
    { rest := List.suffix_refl _
      announced := fun _ _ hfind => by cases hfind
      bodies := fun _ hf => by cases hf }
  have hparse := (admitting tokens).parse_keeps hinit
  rw [h] at hparse
  obtain ⟨s, hs, rfl⟩ := hparse
  obtain ⟨params, hfind, hparams⟩ := hknown f hf
  obtain ⟨n, hn, hcall⟩ := List.mem_filterMap.1 hcall
  obtain ⟨e, he, hn⟩ := Stmt.mem_nodes.1 hn
  rcases hs.bodies g hg e he n hn _ hcall with ⟨p, hp, hcallee, hcount⟩ | ⟨signature, hsig, hcount⟩ | ha
  · have hsettled : ∀ issue ∈ p.issues s.signatures, issue.isFatal = false := fun issue hissue =>
      hissues issue (List.mem_append_right _ (List.mem_flatMap.2 ⟨p, hp, hissue⟩))
    have hlength := length_of_pending hsettled (by rw [hcallee]; exact hfind)
    exact .inl (hcount.symm.trans (hlength.trans hparams))
  · cases hfind.symm.trans hsig
    exact .inl (hcount.symm.trans hparams)
  · exact .inr ha

end Parse

/-- **Calls of own functions have the right number of arguments, up to prototypes.** In the program of
an accepted source text, a call of one of its functions has as many arguments as that function has
parameters, whatever the order of prototypes, definitions and calls; the only other number it can have
is one that a prototype of the function announces in the text. -/
theorem compile_calls_matched {source text : String} {c : Compilation} (h : compile source = .ok c)
    (htext : c.assembly = some text) :
    ∃ parsed, Parse.parse (Source.tokenize source).tokens = .ok parsed ∧
      ∀ f ∈ parsed.program.functions, ∀ g ∈ parsed.program.functions, ∀ count,
        (f.name, count) ∈ g.body.calls →
        count = f.arity ∨ Parse.Announced (Source.tokenize source).tokens f.name count := by
  obtain ⟨parsed, asm, haccepts, -⟩ := compile_accepts h htext
  refine ⟨parsed, haccepts.parse, fun f hf g hg count hcall => ?_⟩
  exact Parse.parse_calls (Source.spelled_tokenize source) haccepts.parse haccepts.issues
    (Program.function_mem hf) (Program.function_mem hg) hcall

/-- A function that is announced, called, defined and called by itself; another one is called before
anything is known of it. -/
def announcedSource : String :=
  "int f(int a); int main() \x7b return f(g(2, 3)); \x7d " ++
    "int f(int a) \x7b if (a) return f(a - 1); return g(a, a); \x7d " ++
    "int g(int a, int b) \x7b return a * b; \x7d"

theorem announcedSource_matched :
    ∃ c text parsed, compile announcedSource = .ok c ∧ c.assembly = some text ∧
      Parse.parse (Source.tokenize announcedSource).tokens = .ok parsed ∧
      ∀ f ∈ parsed.program.functions, ∀ g ∈ parsed.program.functions, ∀ count,
        (f.name, count) ∈ g.body.calls →
        count = f.arity ∨ Parse.Announced (Source.tokenize announcedSource).tokens f.name count := by
  obtain ⟨c, text, hcompile, htext⟩ := exists_assembly announcedSource (by decide +kernel)
  obtain ⟨parsed, hparsed, hcalls⟩ := compile_calls_matched hcompile htext
  exact ⟨c, text, parsed, hcompile, htext, hparsed, hcalls⟩

/-- A function that is called between a prototype with one parameter and a definition with two. -/
def reannouncedSource : String :=
  "int f(int a); int main() \x7b return f(1); \x7d int f(int a, int b) \x7b return a + b; \x7d"

/-- The prototype decides for the call in front of the definition, and nothing is rejected. -/
theorem reannounced_miscalled :
    ∃ c text parsed, compile reannouncedSource = .ok c ∧ c.assembly = some text ∧
      Parse.parse (Source.tokenize reannouncedSource).tokens = .ok parsed ∧
      ∃ f ∈ parsed.program.functions, ∃ g ∈ parsed.program.functions, ∃ call ∈ g.body.calls,
        call.1 = f.name ∧ call.2 ≠ f.arity := by
  obtain ⟨c, text, hcompile, htext⟩ := exists_assembly reannouncedSource (by decide +kernel)
  obtain ⟨parsed, asm, haccepts, -⟩ := compile_accepts hcompile htext
  have hmiscalled : ∀ parsed ∈ (Parse.parse (Source.tokenize reannouncedSource).tokens).toOption,
      ∃ f ∈ parsed.program.functions, ∃ g ∈ parsed.program.functions, ∃ call ∈ g.body.calls,
        call.1 = f.name ∧ call.2 ≠ f.arity := by decide +kernel
  refine ⟨c, text, parsed, hcompile, htext, haccepts.parse, hmiscalled parsed ?_⟩
  rw [haccepts.parse]
  rfl

end WordC
