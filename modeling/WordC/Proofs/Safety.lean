import WordC.Compile
import WordC.Proofs.ReadObjects
import WordC.Proofs.Waiting

/-!
# No faults

No source text makes the compiler stop with a fault, and no token list makes the reader do so whose
numbers are not negative.

* `Ty.Sound`: types whose size can be computed, and those of everything that can be reached from them
  by decay, address and dereference.
* `noFaults`: the discipline under which texts are read. Types are sound, the frame stays within its
  bound, and every node can be emitted, so no fault is allowed.
* `Parse.parse_sound`, `Program.emit_ok`: such token lists are read to the end, and what was read can
  be emitted.
* `compile_total`: every source text is compiled to an outcome.
* `compile_accepts`: an outcome with assembly comes from a text that was read without errors.
-/
namespace WordC

/-! ## Sound types -/

namespace Ty

/-- No array in the type has a negative length or a size that is no word. -/
def Sound : Ty → Prop
  | int => True
  | ptr base => base.Sound
  | array base len => base.Sound ∧ 0 ≤ len ∧ ∃ bytes, (array base len).size = .ok bytes
  | func _ => True

namespace Sound

variable {ty : Ty}

theorem size (h : ty.Sound) : ∃ n, ty.size = .ok n ∧ 0 ≤ n := by
  induction ty with
  | int => exact ⟨8, rfl, by decide⟩
  | ptr base => exact ⟨8, rfl, by decide⟩
  | array base len ih =>
    obtain ⟨hbase, hlen, bytes, hbytes⟩ := h
    obtain ⟨n, hn, hpos⟩ := ih hbase
    refine ⟨bytes, hbytes, ?_⟩
    have hmul : Word.mul n len = .ok bytes := by
      simpa [Ty.size, hn, bind, Except.bind] using hbytes
    obtain ⟨-, rfl⟩ := Word.check_eq_ok_iff.1 hmul
    exact Int.mul_nonneg hpos hlen
  | func ret => exact ⟨0, rfl, by decide⟩

theorem size_ne_error (h : ty.Sound) (f : Fault) : ty.size ≠ .error f := by
  obtain ⟨n, hn, -⟩ := h.size
  rw [hn]
  intro hf
  cases hf

theorem base (h : ty.Sound) {base : Ty} (hbase : ty.base? = some base) : base.Sound := by
  cases ty with
  | int => cases hbase
  | ptr b => cases hbase; exact h
  | array b len => cases hbase; exact h.1
  | func ret => cases hbase

theorem stride (h : ty.Sound) : ∃ n, ty.stride = .ok n := by
  unfold Ty.stride
  split
  · rename_i b hb
    obtain ⟨n, hn, -⟩ := (h.base hb).size
    exact ⟨n, hn⟩
  · exact ⟨1, rfl⟩

theorem decay (h : ty.Sound) : ty.decay.Sound := by
  cases ty with
  | array b len => exact h.1
  | int | ptr b | func ret => exact h

theorem array (h : ty.Sound) {len size bytes : Int} (hlen : 0 ≤ len) (hsize : ty.size = .ok size)
    (hbytes : Word.mul size len = .ok bytes) : (Ty.array ty len).Sound := by
  refine ⟨h, hlen, bytes, ?_⟩
  simpa [Ty.size, hsize, bind, Except.bind] using hbytes

theorem address (h : ty.Sound) : (Expr.addressTy ty).Sound := by
  cases ty with
  | array b len => exact h.1
  | int | ptr b | func ret => exact h

end Sound

end Ty

/-! ## Trees that can be emitted -/

namespace Expr

/-- Every node can be emitted, and the type is sound. -/
def Safe (e : Expr) : Prop := (∀ n ∈ e.nodes, n.emittable) ∧ e.ty.Sound

namespace Safe

variable {lhs rhs e : Expr} {loc : Loc}

theorem mkNum (v : Int) (loc : Loc) : (Expr.mkNum v loc).Safe :=
  ⟨by simp [Expr.mkNum, nodes, emittable], trivial⟩

theorem mkVar {v : Var} (h : v.ty.Sound) : (Expr.mkVar v loc).Safe :=
  ⟨by simp [Expr.mkVar, nodes, emittable], h⟩

theorem mkUnary {op : UnaryOp} (h : e.Safe) (hop : op = .addr → e.isLvalue) {e' : Expr}
    (he' : Expr.mkUnary op e loc = .ok e') : e'.Safe := by
  cases op with
  | neg =>
    cases he'
    exact ⟨by simpa [nodes, emittable] using h.1, h.2⟩
  | addr =>
    cases he'
    exact ⟨by simpa [nodes, emittable, hop rfl] using h.1, h.2.address⟩
  | deref =>
    simp only [Expr.mkUnary] at he'
    split at he'
    · rename_i base hbase
      cases he'
      exact ⟨by simpa [nodes, emittable] using h.1, h.2.base hbase⟩
    · cases he'

theorem binary (op : BinaryOp) {ty : Ty} (hl : lhs.Safe) (hr : rhs.Safe) (hty : ty.Sound) :
    (Expr.binary op lhs rhs ty loc).Safe := by
  refine ⟨?_, hty⟩
  simp only [nodes, List.forall_mem_cons, List.forall_mem_append, emittable, true_and]
  exact ⟨hl.1, hr.1⟩

theorem mkBinary (op : BinaryOp) (hl : lhs.Safe) (hr : rhs.Safe) :
    (Expr.mkBinary op lhs rhs loc).Safe := by
  refine binary op hl hr ?_
  split
  · trivial
  · exact hl.2.decay

theorem mkAssign (hl : lhs.Safe) (hr : rhs.Safe) (hlvalue : lhs.isLvalue)
    (he : Expr.mkAssign lhs rhs loc = .ok e) : e.Safe := by
  unfold Expr.mkAssign at he
  split at he
  · cases he
  · cases he
    refine ⟨?_, hl.2⟩
    simp only [nodes, List.forall_mem_cons, List.forall_mem_append, emittable, hlvalue, true_and]
    exact ⟨hl.1, hr.1⟩

theorem mkCall {callee : String} {args : List Expr} (hargs : ∀ arg ∈ args, arg.Safe)
    (hcount : args.length ≤ maxArgs) : (Expr.mkCall callee args loc).Safe := by
  refine ⟨?_, trivial⟩
  simp only [Expr.mkCall, nodes, List.forall_mem_cons, emittable, decide_eq_true_eq]
  refine ⟨hcount, fun n hn => ?_⟩
  obtain ⟨arg, harg, hn⟩ := mem_nodesAll.1 hn
  exact (hargs arg harg).1 n hn

theorem combines (hl : lhs.Safe) (hr : rhs.Safe) (h : Parse.Combines lhs rhs loc e) : e.Safe := by
  cases h with
  | other op => exact mkBinary op hl hr
  | plain op => exact mkBinary op hl hr
  | step op => exact mkBinary op hl (mkBinary .mul hr (mkNum _ loc))
  | distance => exact mkBinary .div (binary .sub hl hr trivial) (mkNum _ loc)

theorem build {op : Parse.Operator} (hl : lhs.Safe) (hr : rhs.Safe)
    (h : op.build lhs rhs loc = .ok e) : e.Safe := by
  rcases Parse.Operator.build_ok h with h | h
  · exact hl.combines hr h
  · exact hr.combines hl h

theorem build_ne_fault {op : Parse.Operator} {f : Fault} (hl : lhs.Safe) (hr : rhs.Safe) :
    op.build lhs rhs loc ≠ .error (.faulted f) := by
  intro h
  obtain ⟨m, hm⟩ := hl.2.stride
  obtain ⟨n, hn⟩ := hr.2.stride
  rcases Parse.Operator.build_fault h with h | h
  · rw [hm] at h
    cases h
  · rw [hn] at h
    cases h

end Safe

end Expr

/-! ## The discipline -/

/-- The object can be emitted. -/
def Object.Sound : Object → Prop
  | global v => v.ty.Sound
  | function f =>
    0 ≤ f.stackSize ∧ f.stackSize ≤ Parse.maxFrame ∧ ∀ n ∈ f.body.nodes, n.emittable

namespace Parse

/-- No number among the tokens is negative. -/
def Nonnegative (tokens : List Token) : Prop :=
  ∀ t ∈ tokens, t.kind = .num → ∀ v, t.value = some v → 0 ≤ v

/-- What holds of the state while no fault happens. -/
structure State.Safe (s : State) : Prop where
  tokens : Nonnegative s.rest
  locals : ∀ v ∈ s.scope.locals, v.ty.Sound
  nonneg : 0 ≤ s.scope.size
  bounded : s.scope.size ≤ maxFrame
  objects : ∀ o ∈ s.objects, o.Sound

namespace State.Safe

variable {s : State}

theorem var (h : s.Safe) {x : String} {v : Var} (hv : s.var? x = some v) : v.ty.Sound := by
  unfold State.var? at hv
  split at hv
  · rename_i u hu
    cases hv
    exact h.locals u (List.mem_of_find?_eq_some hu)
  · obtain ⟨u, hu, rfl⟩ := Option.map_eq_some_iff.1 hv
    obtain ⟨o, ho, hou⟩ := List.mem_filterMap.1 (List.mem_of_find?_eq_some hu)
    cases o with
    | global w => cases hou; exact h.objects _ ho
    | function f => cases hou

theorem value (h : s.Safe) {t : Token} {ts : List Token} (hrest : s.rest = t :: ts)
    (hkind : t.kind = .num) {v : Int} (hv : t.value = some v) : 0 ≤ v := by
  have ht : t ∈ s.rest := by rw [hrest]; exact List.mem_cons_self
  exact h.tokens t ht hkind v hv

theorem addObject (h : s.Safe) {o : Object} (ho : o.Sound) :
    State.Safe { s with objects := s.objects ++ [o] } :=
  { h with objects := List.forall_mem_append.2 ⟨h.objects, List.forall_mem_singleton.2 ho⟩ }

/-- The sizes of a frame with one more local. -/
theorem total (h : s.Safe) {ty : Ty} {size total : Int} (hty : ty.Sound) (hsize : ty.size = .ok size)
    (htotal : Word.add s.scope.size size = .ok total) : 0 ≤ total := by
  obtain ⟨n, hn, hpos⟩ := hty.size
  cases hsize.symm.trans hn
  obtain ⟨-, rfl⟩ := Word.check_eq_ok_iff.1 htotal
  have := h.nonneg
  omega

/-- A place in the frame can be counted down from its base. -/
theorem neg_ne_error (h : s.Safe) {ty : Ty} {size total : Int} {f : Fault} (hty : ty.Sound)
    (hsize : ty.size = .ok size) (htotal : Word.add s.scope.size size = .ok total)
    (hframe : total ≤ maxFrame) : Word.neg total ≠ .error f := by
  have hpos := h.total hty hsize htotal
  have hfits : Word.Fits (-total) := by
    simp only [Word.Fits, Word.least, Word.greatest, maxFrame] at *
    omega
  intro hf
  simp [Word.neg, Word.check, hfits] at hf

theorem addFunction (h : s.Safe) {x : String} {params locals : List Local} {ty : Ty} {body : Stmt}
    (hbody : ∀ e ∈ body.roots, e.Safe) :
    State.Safe { s with objects := s.objects ++
      [.function ⟨x, params, ty, locals, body, s.scope.size⟩] } := by
  refine h.addObject ⟨h.nonneg, h.bounded, fun n hn => ?_⟩
  obtain ⟨e, he, hn⟩ := Stmt.mem_nodes.1 hn
  exact (hbody e he).1 n hn

end State.Safe

theorem size_empty : 0 ≤ Scope.empty.size ∧ Scope.empty.size ≤ maxFrame := by decide

/-- Reading without faults. -/
def noFaults : Discipline where
  Inv := State.Safe
  Tree _ := Expr.Safe
  Shape := Ty.Sound
  Value v := 0 ≤ v
  Name _ := True
  Allowed _ := False
  value hs hrest hkind hv := hs.value hrest hkind hv
  name _ _ _ := trivial
  read hs hrest := { hs with tokens := fun t ht => hs.tokens t (hrest.subset ht) }
  record _ hs := { hs with }
  wait _ hs _ := { hs with }
  grows he _ := he
  num _ := .mkNum _ _
  sizeof _ _ := .mkNum _ _
  sizeof_fault he hf := he.2.size_ne_error _ hf
  var hs hv := .mkVar (hs.var hv)
  unary he hop he' := he.mkUnary hop he'
  binary _ hl hr he := hl.build hr he
  binary_fault _ hl hr hf := hl.build_ne_fault hr hf
  assign hl hr hlvalue he := hl.mkAssign hr hlvalue he
  call hargs hcount _ := .mkCall hargs hcount
  int := trivial
  ptr h := h
  decay h := h.decay
  array hty hlen hsize hbytes := hty.array hlen hsize hbytes
  size_fault h hf := h.size_ne_error _ hf
  enter hs :=
    { hs with
      locals := List.forall_mem_nil _
      nonneg := size_empty.1
      bounded := size_empty.2 }
  declareLocal hs _ hty _ hsize htotal hframe _ :=
    { hs with
      locals := List.forall_mem_append.2 ⟨hs.locals, List.forall_mem_singleton.2 hty⟩
      nonneg := hs.total hty hsize htotal
      bounded := hframe }
  offset_fault hs hty hsize htotal hframe hf := hs.neg_ne_error hty hsize htotal hframe hf
  declare _ _ _ hs _ _ := { hs with }
  define _ hs _ _ _ := { hs with }
  declareGlobal hs _ hty _ _ := hs.addObject hty
  defineFunction _ _ _ _ _ _ _ _ hs _ hbody := hs.addFunction hbody

/-- Any tokens without negative numbers are read to the end, and what was read can be emitted. -/
theorem parse_sound {tokens : List Token} (h : Nonnegative tokens) :
    ∃ parsed, parse tokens = .ok parsed ∧ ∀ o ∈ parsed.program.objects, o.Sound := by
  have hinit : noFaults.Inv (.ofTokens tokens) :=
    { tokens := fun t ht => h t ((List.takeWhile_prefix _).subset ht)
      locals := List.forall_mem_nil _
      nonneg := size_empty.1
      bounded := size_empty.2
      objects := List.forall_mem_nil _ }
  have hparse := noFaults.parse_keeps hinit
  cases hrun : parse tokens with
  | error f => rw [hrun] at hparse; exact absurd hparse id
  | ok parsed =>
    rw [hrun] at hparse
    obtain ⟨s, hs, rfl⟩ := hparse
    exact ⟨_, rfl, hs.objects⟩

end Parse

/-! ## Emission -/

/-- The frame of a function can be rounded up. -/
theorem Word.alignTo_ok {n : Int} (hpos : 0 ≤ n) (hle : n ≤ Parse.maxFrame) :
    ∃ m, Word.alignTo n 16 = .ok m := by
  have hok {k : Int} (h0 : 0 ≤ k) (h1 : k ≤ 2147483648) : Word.check k = .ok k :=
    Word.check_eq_ok_iff.2 ⟨⟨by unfold least; omega, by unfold greatest; omega⟩, rfl⟩
  unfold Parse.maxFrame at hle
  have hdiv : (n + 16 - 1).tdiv 16 = (n + 16 - 1) / 16 := Int.tdiv_eq_ediv_of_nonneg (by omega)
  refine ⟨(n + 16 - 1) / 16 * 16, ?_⟩
  simp only [Word.alignTo, Word.add, Word.sub, Word.div, Word.mul]
  rw [hok (by omega) (by omega)]
  simp only [bind, Except.bind]
  rw [hok (by omega) (by omega)]
  simp only [show ¬(16 : Int) = 0 by decide, if_false, hdiv]
  rw [hok (by omega) (by omega)]
  exact hok (by omega) (by omega)

namespace Program

theorem emitGlobals_ok {vs : List Global} (h : ∀ v ∈ vs, v.ty.Sound) :
    ∃ lines, emitGlobals vs = .ok lines := by
  induction vs with
  | nil => exact ⟨[], rfl⟩
  | cons v vs ih =>
    obtain ⟨hv, hvs⟩ := List.forall_mem_cons.1 h
    obtain ⟨size, hsize, -⟩ := hv.size
    obtain ⟨more, hmore⟩ := ih hvs
    simp [emitGlobals, Global.emit, hsize, hmore, bind, Except.bind, pure, Except.pure]

theorem emitFunctions_ok {fs : List Function} (h : ∀ f ∈ fs, (Object.function f).Sound) :
    ∀ used, ∃ lines, emitFunctions used fs = .ok lines := by
  induction fs with
  | nil => intro used; exact ⟨[], rfl⟩
  | cons f fs ih =>
    intro used
    obtain ⟨⟨hpos, hle, hnodes⟩, hfs⟩ := List.forall_mem_cons.1 h
    obtain ⟨frame, hframe⟩ := Word.alignTo_ok hpos hle
    obtain ⟨more, hmore⟩ := ih hfs (used + f.body.labels)
    have hbody := f.body.fault?_eq_none_iff.2 hnodes
    simp [emitFunctions, Function.emit, hframe, hbody, hmore, bind, Except.bind, pure, Except.pure]

/-- Sound objects can be emitted. -/
theorem emit_ok {p : Program} (h : ∀ o ∈ p.objects, o.Sound) : ∃ asm, p.emit = .ok asm := by
  have hglobals : ∀ v ∈ p.globals, v.ty.Sound := by
    intro v hv
    obtain ⟨o, ho, hov⟩ := List.mem_filterMap.1 hv
    cases o with
    | global w => cases hov; exact h _ ho
    | function f => cases hov
  have hfunctions : ∀ f ∈ p.functions, (Object.function f).Sound := by
    intro f hf
    obtain ⟨o, ho, hof⟩ := List.mem_filterMap.1 hf
    cases o with
    | global w => cases hof
    | function g => cases hof; exact h _ ho
  obtain ⟨data, hdata⟩ := emitGlobals_ok hglobals
  obtain ⟨code, hcode⟩ := emitFunctions_ok hfunctions 0
  simp [emit, emitData, hdata, hcode, bind, Except.bind, pure, Except.pure]

end Program

/-! ## Source texts -/

/-- A run of digits is never negative. -/
theorem Source.nonnegative_tokenize (source : String) :
    Parse.Nonnegative (Source.tokenize source).tokens := by
  intro t ht _ v hv
  rcases List.mem_append.1 ht with ht | ht
  · obtain ⟨p, -, hp⟩ := List.mem_filterMap.1 ht
    unfold Placed.token? Segment.token? at hp
    split at hp
    · split at hp
      · cases hp
        cases hv
        exact Int.natCast_nonneg _
      · cases hp
    · cases hp
      cases hv
    · cases hp
      cases hv
    · cases hp
  · rw [List.mem_singleton.1 ht] at hv
    cases hv

/-- The source text is accepted: it is read as `parsed`, without errors, and emitted as `asm`. -/
structure Accepts (source : String) (parsed : Parse.Parsed) (asm : Assembly) : Prop where
  parse : Parse.parse (Source.tokenize source).tokens = .ok parsed
  issues : ∀ issue ∈ parsed.issues, issue.isFatal = false
  emit : parsed.program.emit = .ok asm

/-- Whether there is assembly can be evaluated. -/
theorem exists_assembly (source : String)
    (h : ((compile source).toOption.bind Compilation.assembly).isSome) :
    ∃ c text, compile source = .ok c ∧ c.assembly = some text := by
  obtain ⟨text, htext⟩ := Option.isSome_iff_exists.1 h
  obtain ⟨c, hc, htext⟩ := Option.bind_eq_some_iff.1 htext
  refine ⟨c, text, ?_, htext⟩
  cases hrun : compile source with
  | error fault => rw [hrun] at hc; cases hc
  | ok c' => rw [hrun] at hc; cases hc; rfl

/-- There is assembly only for accepted texts. -/
theorem compile_accepts {source text : String} {c : Compilation} (h : compile source = .ok c)
    (htext : c.assembly = some text) : ∃ parsed asm, Accepts source parsed asm ∧ asm.text = text := by
  unfold compile at h
  dsimp only at h
  split at h
  · cases h
    cases htext
  · obtain ⟨parsed, hparsed, h⟩ := Word.bind_eq_ok_iff.1 h
    split at h
    · cases h
      cases htext
    · rename_i hfatal
      obtain ⟨asm, hasm, h⟩ := Word.bind_eq_ok_iff.1 h
      cases h
      refine ⟨parsed, asm, ⟨hparsed, fun issue hissue => ?_, hasm⟩, Option.some.inj htext⟩
      simp only [List.any_eq_true, not_exists, not_and, Bool.not_eq_true] at hfatal
      exact hfatal issue (List.mem_append_right _ hissue)

/-- **The compiler never faults.** Every source text is compiled to an outcome. More than that, every
token list without negative numbers, wherever its end marks are, is read to the end; what was read
can be emitted; and in its functions no operand waits on the stack where a statement starts or
ends. -/
theorem compile_total :
    (∀ source, ∃ c, compile source = .ok c) ∧
    ∀ tokens, Parse.Nonnegative tokens →
      ∃ parsed, Parse.parse tokens = .ok parsed ∧ (∃ asm, parsed.program.emit = .ok asm) ∧
        ∀ f ∈ parsed.program.functions, ∀ used steps, steps <+: f.body.flow f.name used →
          Asm.waiting (steps.flatMap Flow.lines) = 0 := by
  constructor
  · intro source
    obtain ⟨parsed, hparsed, hobjects⟩ := Parse.parse_sound (Source.nonnegative_tokenize source)
    obtain ⟨asm, hasm⟩ := Program.emit_ok hobjects
    unfold compile
    dsimp only
    split
    · exact ⟨_, rfl⟩
    · simp only [hparsed, bind, Except.bind]
      split
      · exact ⟨_, rfl⟩
      · simp [finish, hasm, bind, Except.bind, pure, Except.pure]
  · intro tokens htokens
    obtain ⟨parsed, hparsed, hobjects⟩ := Parse.parse_sound htokens
    refine ⟨parsed, hparsed, Program.emit_ok hobjects, ?_⟩
    intro f hf used steps hsteps
    obtain ⟨o, ho, hof⟩ := List.mem_filterMap.1 hf
    cases o with
    | global v => cases hof
    | function g =>
      cases hof
      obtain ⟨-, -, hnodes⟩ := hobjects _ ho
      exact Stmt.waiting_lines (f.body.fault?_eq_none_iff.2 hnodes) hsteps

/-- `int a[` and a number without a value, with tokens behind an end mark and no end mark behind
them. -/
def sampleTokens : List Token :=
  [⟨.keyword, "int", none, ⟨1, 1⟩⟩, ⟨.ident, "a", none, ⟨1, 5⟩⟩, ⟨.punctuator, "[", none, ⟨1, 6⟩⟩,
    ⟨.num, "", none, ⟨1, 7⟩⟩, .endMark ⟨1, 8⟩, ⟨.num, "3", some 3, ⟨1, 9⟩⟩]

theorem parse_sampleTokens : ∃ parsed, Parse.parse sampleTokens = .ok parsed := by
  have hnonneg : Parse.Nonnegative sampleTokens := by
    intro t ht _ v hv
    simp only [sampleTokens, List.mem_cons, List.not_mem_nil, or_false] at ht
    rcases ht with rfl | rfl | rfl | rfl | rfl | rfl <;> cases hv
    decide
  obtain ⟨parsed, hparsed, -⟩ := compile_total.2 sampleTokens hnonneg
  exact ⟨parsed, hparsed⟩

end WordC
