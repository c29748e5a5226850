import Mathlib.Algebra.BigOperators.Ring.List
import Mathlib.Algebra.Order.BigOperators.GroupWithZero.List
import Mathlib.Algebra.Order.Ring.Int
import Mathlib.Tactic.Ring
import WordC.Proofs.PointerArithmetic
import WordC.Proofs.Safety
import WordC.Proofs.Typing

/-!
# The sizes of elements

A difference of pointers is divided by the size of what they point to. That size depends on the type of
the left operand, and so on all declarators, address operators and dereferences on the way to it. All
types that can be reached so are made of words, pointers and arrays of known lengths, so their sizes
are eight bytes for each word.

* `Ty.Arises`: the types that can be reached. `Ty.dims`: the lengths of an array of arrays.
* `Ty.Arises.size_eq`, `Ty.Arises.positive_iff`: the size, and when it is not zero.
* `Expr.Typed.arises`, `Expr.WellTyped.arises`: where the types of variables arise, those of single
  nodes and of whole trees do.
* `arising`: the discipline of variables whose types arise. `parse_arises`: all types in what was read
  do.
* `compile_elementSizes`: in an accepted text, a difference of pointers is divided by a positive size,
  unless an array of length zero is in the way.
* `rowless_divides_by_zero`: such an array can be in the way.
-/
namespace WordC

/-! ## Types that arise -/

namespace Ty

/-- The types of declared variables and of expressions: words, pointers to such types, and arrays of
them whose size is a word. -/
inductive Arises : Ty → Prop where
  | int : Arises int
  | ptr {base : Ty} : Arises base → Arises (ptr base)
  | array {base : Ty} {len bytes : Int} : Arises base → 0 ≤ len →
    (array base len).size = .ok bytes → Arises (array base len)

/-- The lengths of an array of arrays, the outermost first. What is no array has none. -/
def dims : Ty → List Int
  | array base len => len :: base.dims
  | _ => []

theorem dims_of_scalar {ty : Ty} (h : ty.isArray = false) : ty.dims = [] := by
  cases ty with
  | array base len => cases h
  | int | ptr base | func ret => rfl

namespace Arises

variable {ty : Ty}

theorem base (h : ty.Arises) {elem : Ty} (helem : ty.base? = some elem) : elem.Arises := by
  cases h with
  | int => cases helem
  | ptr hbase => cases helem; exact hbase
  | array hbase _ _ => cases helem; exact hbase

theorem decay (h : ty.Arises) : ty.decay.Arises := by
  cases h with
  | int => exact .int
  | ptr hbase => exact .ptr hbase
  | array hbase _ _ => exact .ptr hbase

theorem element (h : ty.Arises) : ty.element.Arises := by
  cases h with
  | int => exact .int
  | ptr hbase => exact .ptr hbase
  | array hbase _ _ => exact hbase

/-- Words and pointers take eight bytes, and an array as many of them as its lengths multiply to. -/
theorem size_eq (h : ty.Arises) : ty.size = .ok (8 * ty.dims.prod) := by
  induction h with
  | int => rfl
  | ptr _ => rfl
  | @array base len bytes _ _ hsize ih =>
    obtain ⟨size, hbase, hmul⟩ := Word.bind_eq_ok_iff.1 hsize
    cases ih.symm.trans hbase
    obtain ⟨-, rfl⟩ := Word.check_eq_ok_iff.1 hmul
    rw [hsize, dims, List.prod_cons]
    congr 1
    ring

theorem prod_nonneg (h : ty.Arises) : 0 ≤ ty.dims.prod := by
  induction h with
  | int => exact Int.one_nonneg
  | ptr _ => exact Int.one_nonneg
  | array _ hlen _ ih =>
    rw [dims, List.prod_cons]
    exact Int.mul_nonneg hlen ih

/-- Only a length of zero makes the size zero. -/
theorem positive_iff (h : ty.Arises) : 1 ≤ 8 * ty.dims.prod ↔ 0 ∉ ty.dims := by
  have hnonneg := h.prod_nonneg
  rw [← List.prod_eq_zero_iff]
  omega

end Arises

end Ty

/-! ## Types of nodes -/

/-- The types of all variables that can be referred to arise. -/
structure Context.Arising (Γ : Context) : Prop where
  locals : ∀ v ∈ Γ.locals, v.ty.Arises
  globals : ∀ v, .global v ∈ Γ.objects → v.ty.Arises

namespace Expr

variable {Γ : Context} {e n lhs rhs : Expr} {loc : Loc}

/-- Trees by what stands directly below their roots. -/
theorem induct_children {motive : Expr → Prop}
    (node : ∀ e, (∀ c ∈ e.children, motive c) → motive e) (e : Expr) : motive e := by
  induction e with
  | num value ty loc => exact node _ (List.forall_mem_nil _)
  | var v ty loc => exact node _ (List.forall_mem_nil _)
  | unary op operand ty loc ih => exact node _ (List.forall_mem_singleton.2 ih)
  | binary op lhs rhs ty loc ihl ihr =>
    exact node _ (List.forall_mem_cons.2 ⟨ihl, List.forall_mem_singleton.2 ihr⟩)
  | assign lhs rhs ty loc ihl ihr =>
    exact node _ (List.forall_mem_cons.2 ⟨ihl, List.forall_mem_singleton.2 ihr⟩)
  | call callee args ty loc ih => exact node _ ih

theorem mem_nodes_self (e : Expr) : e ∈ e.nodes := mem_nodes.2 (.inl rfl)

theorem mem_nodes_of_child {c : Expr} (hc : c ∈ e.children) : c ∈ e.nodes :=
  mem_nodes.2 (.inr ⟨c, hc, mem_nodes_self c⟩)

/-- What is below a node of a tree is below the tree. -/
theorem mem_nodes_trans {m : Expr} (hn : n ∈ e.nodes) (hm : m ∈ n.nodes) : m ∈ e.nodes := by
  induction e using induct_children with
  | node e ih =>
    rcases mem_nodes.1 hn with rfl | ⟨c, hc, hn⟩
    · exact hm
    · exact mem_nodes.2 (.inr ⟨c, hc, ih c hc hn⟩)

/-- One node: its type comes from the variable it is, or from what stands below it. -/
theorem Typed.arises (hΓ : Γ.Arising) (h : e.Typed Γ) (hchildren : ∀ c ∈ e.children, c.ty.Arises) :
    e.ty.Arises := by
  cases e with
  | num value ty loc => cases h; exact .int
  | var v ty loc =>
    cases v with
    | frame v =>
      obtain ⟨hfind, rfl⟩ := h
      exact hΓ.locals v (List.mem_of_find?_eq_some hfind)
    | data v =>
      obtain ⟨hmem, rfl⟩ := h
      exact hΓ.globals v hmem
  | unary op operand ty loc =>
    have hoperand : operand.ty.Arises := hchildren operand List.mem_cons_self
    cases op with
    | neg => cases h; exact hoperand
    | addr => cases h.2; exact .ptr hoperand.element
    | deref => exact hoperand.base h
  | binary op lhs rhs ty loc =>
    have hlhs : lhs.ty.Arises := hchildren lhs List.mem_cons_self
    cases op with
    | add => cases h.2.1; exact hlhs.decay
    | sub =>
      simp only [Typed] at h
      split at h
      · cases h.2; exact .int
      · cases h.1; exact hlhs.decay
    | mul | div => cases h; exact hlhs.decay
    | eq | ne | lt | le => cases h; exact .int
  | assign lhs rhs ty loc => cases h.2.2; exact hchildren lhs List.mem_cons_self
  | call callee args ty loc => cases h.1; exact .int

/-- Every node of a well-typed tree is well typed. -/
theorem WellTyped.below (h : e.WellTyped Γ) (hn : n ∈ e.nodes) : n.WellTyped Γ :=
  fun m hm => h m (mem_nodes_trans hn hm)

/-- Whole trees: their types arise if those of the variables do. -/
theorem WellTyped.arises (hΓ : Γ.Arising) (h : e.WellTyped Γ) : e.ty.Arises := by
  induction e using induct_children with
  | node e ih =>
    have hroot : e.Typed Γ := (h e (mem_nodes_self e)).1
    exact hroot.arises hΓ fun c hc => ih c hc (h.below (mem_nodes_of_child hc))

/-! ## Differences of pointers -/

/-- The number by which the tree divides a difference of pointers. -/
def elementSize? : Expr → Option Int
  | binary .div c (num size _ _) _ _ => if c.isDistance then some size else none
  | _ => none

/-- A difference of pointers is divided by the size of what the left one points to. -/
theorem elementSize?_minus (hl : lhs.ty.isPointer) (hr : rhs.ty.isPointer)
    (h : minus lhs rhs loc = .ok n) : ∃ elem size, lhs.ty.base? = some elem ∧ elem.size = .ok size ∧
      lhs ∈ n.nodes ∧ n.elementSize? = some size := by
  cases hstride : lhs.ty.stride with
  | error fault =>
    unfold minus distance at h
    rw [hl, hr, hstride] at h
    cases h
  | ok size =>
    rw [minus_pointers hl hr hstride] at h
    cases h
    obtain ⟨elem, helem, hsize⟩ := Good.base_of_stride hl hstride
    refine ⟨elem, size, helem, hsize, ?_, ?_⟩
    · have hleft : lhs ∈ (binary .sub lhs rhs .int loc).nodes := mem_nodes_of_child List.mem_cons_self
      exact mem_nodes_trans (mem_nodes_of_child List.mem_cons_self) hleft
    · simp [elementSize?, isDistance, mkBinary, mkNum, hr]

/-- In a well-typed tree, nothing else divides a difference of pointers. -/
theorem WellTyped.minus_of_elementSize? {size : Int} (h : e.WellTyped Γ) (hn : n ∈ e.nodes)
    (hsize : n.elementSize? = some size) :
    ∃ lhs rhs loc, lhs.ty.isPointer ∧ rhs.ty.isPointer ∧ minus lhs rhs loc = .ok n := by
  unfold elementSize? at hsize
  split at hsize
  · rename_i c bytes ty₁ loc₁ ty₂ loc₂
    split at hsize
    · rename_i hdistance
      obtain ⟨lhs, rhs, elem, bytes', loc, rfl, helem, hbytes, hdiv⟩ :=
        (h _ hn).2 c List.mem_cons_self hdistance
      have hl := Ty.isPointer_of_base helem
      refine ⟨lhs, rhs, loc, hl, hdistance, ?_⟩
      rw [minus_pointers hl hdistance ((Ty.stride_of_base helem).trans hbytes), hdiv]
      rfl
    · cases hsize
  · cases hsize

end Expr

/-! ## The discipline -/

namespace Parse

/-- The types of all variables declared so far arise. -/
structure State.Arising (s : State) : Prop where
  tokens : Nonnegative s.rest
  locals : ∀ v ∈ s.scope.locals, v.ty.Arises
  globals : ∀ v, .global v ∈ s.objects → v.ty.Arises
  functions : ∀ f, .function f ∈ s.objects → ∀ v ∈ f.locals, v.ty.Arises

namespace State.Arising

variable {s : State}

theorem addGlobal (h : s.Arising) {v : Global} (hv : v.ty.Arises) :
    State.Arising { s with objects := s.objects ++ [.global v] } where
  tokens := h.tokens
  locals := h.locals
  globals u hu := by
    rcases List.mem_append.1 hu with hu | hu
    · exact h.globals u hu
    · cases List.mem_singleton.1 hu
      exact hv
  functions f hf := h.functions f (by simpa using hf)

theorem addFunction (h : s.Arising) {x : String} {params : List Local} {ty : Ty} {body : Stmt} :
    State.Arising { s with objects := s.objects ++
      [.function ⟨x, params, ty, s.scope.locals, body, s.scope.size⟩] } where
  tokens := h.tokens
  locals := h.locals
  globals v hv := h.globals v (by simpa using hv)
  functions f hf := by
    rcases List.mem_append.1 hf with hf | hf
    · exact h.functions f hf
    · cases List.mem_singleton.1 hf
      exact h.locals

end State.Arising

/-- Reading declarations of types that arise, whatever faults there are. -/
def arising : Discipline where
  Inv := State.Arising
  Tree _ _ := True
  Shape := Ty.Arises
  Value v := 0 ≤ v
  Name _ := True
  Allowed _ := True
  value {s t ts v} hs hrest hkind hv :=
    hs.tokens t (by rw [hrest]; exact List.mem_cons_self) hkind v hv
  name _ _ _ := trivial
  read hs hrest := { hs with tokens := fun t ht => hs.tokens t (hrest.subset ht) }
  record _ hs := { hs with }
  wait _ hs _ := { hs with }
  grows _ _ := trivial
  num _ := trivial
  sizeof _ _ := trivial
  sizeof_fault _ _ := trivial
  var _ _ := trivial
  unary _ _ _ := trivial
  binary _ _ _ _ := trivial
  binary_fault _ _ _ _ := trivial
  assign _ _ _ _ := trivial
  call _ _ _ := trivial
  int := .int
  ptr h := .ptr h
  decay h := h.decay
  array h hlen hsize hbytes := .array h hlen (Word.bind_eq_ok_iff.2 ⟨_, hsize, hbytes⟩)
  size_fault _ _ := trivial
  enter hs := { hs with locals := List.forall_mem_nil _ }
  declareLocal hs _ hty _ _ _ _ _ :=
    { hs with locals := List.forall_mem_append.2 ⟨hs.locals, List.forall_mem_singleton.2 hty⟩ }
  offset_fault _ _ _ _ _ _ := trivial
  declare _ _ _ hs _ _ := { hs with }
  define _ hs _ _ _ := { hs with }
  declareGlobal hs _ hty _ _ := hs.addGlobal hty
  defineFunction _ _ _ _ _ _ _ _ hs _ _ := hs.addFunction

/-- Every expression of a function that was read is well typed, among the variables that were declared
by then. -/
theorem parse_good {tokens : List Token} {parsed : Parsed} (h : parse tokens = .ok parsed)
    {f : Function} (hf : .function f ∈ parsed.program.objects) :
    ∃ before, before <+: parsed.program.objects ∧ ∀ e ∈ f.body.roots, e.Good ⟨f.locals, before⟩ := by
  have hinit : wellTyped.Inv (.ofTokens tokens) := WellTypedObjects.nil
  have hparse := wellTyped.parse_keeps hinit
  rw [h] at hparse
  obtain ⟨s, hs, rfl⟩ := hparse
  obtain ⟨before, after, hsplit⟩ := List.append_of_mem hf
  exact ⟨before, ⟨_, hsplit.symm⟩, hs before f after hsplit⟩

/-- The types of all locals and of all nodes in what was read arise. -/
theorem parse_arises {tokens : List Token} {parsed : Parsed} (htokens : Nonnegative tokens)
    (h : parse tokens = .ok parsed) {f : Function} (hf : .function f ∈ parsed.program.objects) :
    (∀ v ∈ f.locals, v.ty.Arises) ∧ ∀ n ∈ f.body.nodes, n.ty.Arises := by
  obtain ⟨before, hbefore, hgood⟩ := parse_good h hf
  have hinit : arising.Inv (.ofTokens tokens) :=
    { tokens := fun t ht => htokens t ((List.takeWhile_prefix _).subset ht)
      locals := List.forall_mem_nil _
      globals := fun _ hv => by cases hv
      functions := fun _ hf => by cases hf }
  have hparse := arising.parse_keeps hinit
  rw [h] at hparse
  obtain ⟨s, hs, rfl⟩ := hparse
  have hΓ : Context.Arising ⟨f.locals, before⟩ :=
    ⟨hs.functions f hf, fun v hv => hs.globals v (hbefore.subset hv)⟩
  refine ⟨hΓ.locals, fun n hn => ?_⟩
  obtain ⟨e, he, hn⟩ := Stmt.mem_nodes.1 hn
  exact ((hgood e he).2.below hn).arises hΓ

/-- In what was read, only the difference of two pointers divides by the size of an element. -/
theorem parse_minus {tokens : List Token} {parsed : Parsed} (h : parse tokens = .ok parsed)
    {f : Function} (hf : .function f ∈ parsed.program.objects) {n : Expr} (hn : n ∈ f.body.nodes)
    {size : Int} (hsize : n.elementSize? = some size) :
    ∃ lhs rhs loc, lhs.ty.isPointer ∧ rhs.ty.isPointer ∧ Expr.minus lhs rhs loc = .ok n := by
  obtain ⟨before, -, hgood⟩ := parse_good h hf
  obtain ⟨e, he, hn⟩ := Stmt.mem_nodes.1 hn
  exact (hgood e he).2.minus_of_elementSize? hn hsize

end Parse

/-! ## Accepted texts -/

/-- **Differences of pointers are divided by positive sizes, but for arrays of length zero.** Take any
node in the program of an accepted source text that was built for the difference of two pointers. It
divides by a number, which is never negative, and which is positive exactly if there is no zero among
the lengths of what the left operand points to. -/
theorem compile_elementSizes {source text : String} {c : Compilation} (h : compile source = .ok c)
    (htext : c.assembly = some text) :
    ∃ parsed, Parse.parse (Source.tokenize source).tokens = .ok parsed ∧
      ∀ f ∈ parsed.program.functions, ∀ n ∈ f.body.nodes, ∀ lhs rhs loc,
        lhs.ty.isPointer → rhs.ty.isPointer → Expr.minus lhs rhs loc = .ok n →
        ∃ elem size, lhs.ty.base? = some elem ∧ n.elementSize? = some size ∧ 0 ≤ size ∧
          (1 ≤ size ↔ 0 ∉ elem.dims) := by
  obtain ⟨parsed, asm, haccepts, -⟩ := compile_accepts h htext
  refine ⟨parsed, haccepts.parse, fun f hf n hn lhs rhs loc hl hr hminus => ?_⟩
  obtain ⟨elem, size, helem, hsize, hmem, hdivisor⟩ := Expr.elementSize?_minus hl hr hminus
  have harises : elem.Arises := by
    obtain ⟨e, he, hn⟩ := Stmt.mem_nodes.1 hn
    have hleft : lhs ∈ f.body.nodes := Stmt.mem_nodes.2 ⟨e, he, Expr.mem_nodes_trans hn hmem⟩
    have htypes := Parse.parse_arises (Source.nonnegative_tokenize source) haccepts.parse
      (Program.function_mem hf)
    exact (htypes.2 lhs hleft).base helem
  cases hsize.symm.trans harises.size_eq
  have hnonneg := harises.prod_nonneg
  exact ⟨elem, _, helem, hdivisor, by omega, harises.positive_iff⟩

/-- A difference of rows and one of elements. -/
def rowsSource : String := "int m[4][3]; int main() \x7b return (m + 2 - m) + (&m[1][2] - m[0]); \x7d"

theorem rowsSource_elementSizes :
    ∃ c text parsed, compile rowsSource = .ok c ∧ c.assembly = some text ∧
      Parse.parse (Source.tokenize rowsSource).tokens = .ok parsed ∧
      ∃ f ∈ parsed.program.functions, ∃ n ∈ f.body.nodes, n.elementSize? = some 24 ∧
        ∃ lhs rhs loc elem, lhs.ty.isPointer ∧ rhs.ty.isPointer ∧ Expr.minus lhs rhs loc = .ok n ∧
          lhs.ty.base? = some elem ∧ 0 ∉ elem.dims := by
  obtain ⟨c, text, hcompile, htext⟩ := exists_assembly rowsSource (by decide +kernel)
  obtain ⟨parsed, hparsed, hsizes⟩ := compile_elementSizes hcompile htext
  have hrows : ∀ parsed ∈ (Parse.parse (Source.tokenize rowsSource).tokens).toOption,
      ∃ f ∈ parsed.program.functions, ∃ n ∈ f.body.nodes, n.elementSize? = some 24 := by decide +kernel
  obtain ⟨f, hf, n, hn, hdivisor⟩ := hrows parsed (by rw [hparsed]; rfl)
  obtain ⟨lhs, rhs, loc, hl, hr, hminus⟩ :=
    Parse.parse_minus hparsed (Program.function_mem hf) hn hdivisor
  obtain ⟨elem, size, helem, hsize, -, hpositive⟩ := hsizes f hf n hn lhs rhs loc hl hr hminus
  cases hdivisor.symm.trans hsize
  exact ⟨c, text, parsed, hcompile, htext, hparsed, f, hf, n, hn, hdivisor, lhs, rhs, loc, elem, hl,
    hr, hminus, helem, hpositive.1 (by decide)⟩

/-- The rows of the array have no elements. -/
def rowlessSource : String := "int main() \x7b int a[2][0]; return a - a; \x7d"

/-- Rows without elements take no bytes, so their number is divided by zero, and nothing is
rejected. -/
theorem rowless_divides_by_zero :
    ∃ c text parsed, compile rowlessSource = .ok c ∧ c.assembly = some text ∧
      Parse.parse (Source.tokenize rowlessSource).tokens = .ok parsed ∧
      ∃ f ∈ parsed.program.functions, ∃ n ∈ f.body.nodes, n.elementSize? = some 0 ∧
        ∃ lhs rhs loc, lhs.ty.isPointer ∧ rhs.ty.isPointer ∧ Expr.minus lhs rhs loc = .ok n := by
  obtain ⟨c, text, hcompile, htext⟩ := exists_assembly rowlessSource (by decide +kernel)
  obtain ⟨parsed, asm, haccepts, -⟩ := compile_accepts hcompile htext
  have hrowless : ∀ parsed ∈ (Parse.parse (Source.tokenize rowlessSource).tokens).toOption,
      ∃ f ∈ parsed.program.functions, ∃ n ∈ f.body.nodes, n.elementSize? = some 0 := by decide +kernel
  obtain ⟨f, hf, n, hn, hzero⟩ := hrowless parsed (by rw [haccepts.parse]; rfl)
  exact ⟨c, text, parsed, hcompile, htext, haccepts.parse, f, hf, n, hn, hzero,
    Parse.parse_minus haccepts.parse (Program.function_mem hf) hn hzero⟩

end WordC
