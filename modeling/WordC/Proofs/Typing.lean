import WordC.Proofs.ReadObjects

/-!
# Trees that are read are well typed

Emission looks at the types of nodes and checks nothing, so it depends on the reader for trees that
are well typed. They are, whatever was rejected on the way.

* `Expr.Typed`: what is asked of a single node. A variable of the frame is one of the locals of its
  function, and a global variable was declared before the function.
* `Expr.CountsElements`: the one place where pointers are subtracted as they are, below a division by
  the size of what they point to.
* `Expr.WellTyped`: all nodes of a tree are typed, and every such subtraction is in its place.
* `wellTyped`: the discipline of well-typed trees.
* `parse_wellTyped`: it holds of every function in what was read.
-/
namespace WordC

/-- What an address of a place of this type points to. -/
def Ty.element : Ty → Ty
  | array base _ => base
  | ty => ty

/-- What a function body can refer to: its own locals, and the objects before it. -/
structure Context where
  locals : List Local
  objects : List Object

namespace Expr

/-! ## Single nodes -/

/-- What is added to a pointer is a number of elements, in bytes. -/
def Scaled (lhs rhs : Expr) : Prop :=
  lhs.ty.isPointer → ∃ index base size loc, lhs.ty.base? = some base ∧ base.size = .ok size ∧
    rhs = binary .mul index (num size .int loc) index.ty.decay loc

/-- The node has the type that its form and its operands give it. -/
def Typed (Γ : Context) : Expr → Prop
  | num _ ty _ => ty = .int
  | var (.frame v) ty _ => Γ.locals.find? (·.name == v.name) = some v ∧ ty = v.ty
  | var (.data v) ty _ => .global v ∈ Γ.objects ∧ ty = v.ty
  | unary .neg operand ty _ => ty = operand.ty
  | unary .addr operand ty _ => operand.isLvalue ∧ ty = .ptr operand.ty.element
  | unary .deref operand ty _ => operand.ty.base? = some ty
  | binary .add lhs rhs ty _ => rhs.ty.isPointer = false ∧ ty = lhs.ty.decay ∧ Scaled lhs rhs
  | binary .sub lhs rhs ty _ =>
    if rhs.ty.isPointer then lhs.ty.isPointer ∧ ty = .int else ty = lhs.ty.decay ∧ Scaled lhs rhs
  | binary .mul lhs _ ty _ => ty = lhs.ty.decay
  | binary .div lhs _ ty _ => ty = lhs.ty.decay
  | binary .eq _ _ ty _ => ty = .int
  | binary .ne _ _ ty _ => ty = .int
  | binary .lt _ _ ty _ => ty = .int
  | binary .le _ _ ty _ => ty = .int
  | assign lhs _ ty _ => lhs.isLvalue ∧ lhs.ty.isArray = false ∧ ty = lhs.ty
  | call _ args ty _ => ty = .int ∧ args.length ≤ maxArgs

/-- A pointer is subtracted. -/
def isDistance : Expr → Bool
  | binary .sub _ rhs _ _ => rhs.ty.isPointer
  | _ => false

/-- `n` divides the difference `c` of two pointers by the size of what the left one points to. -/
def CountsElements (c n : Expr) : Prop :=
  ∃ lhs rhs base size loc, c = binary .sub lhs rhs .int loc ∧ lhs.ty.base? = some base ∧
    base.size = .ok size ∧ n = binary .div c (num size .int loc) .int loc

/-! ## Whole trees -/

/-- Every node is typed, and pointers are subtracted only where elements are counted. -/
def WellTyped (Γ : Context) (e : Expr) : Prop :=
  ∀ n ∈ e.nodes, n.Typed Γ ∧ ∀ c ∈ n.children, c.isDistance → c.CountsElements n

/-- A well-typed tree that can stand anywhere. -/
def Good (Γ : Context) (e : Expr) : Prop := e.isDistance = false ∧ e.WellTyped Γ

variable {Γ Γ' : Context} {a b e : Expr} {loc : Loc}

theorem WellTyped.node (hnode : e.Typed Γ)
    (hchildren : ∀ c ∈ e.children, c.WellTyped Γ ∧ (c.isDistance → c.CountsElements e)) :
    e.WellTyped Γ := by
  intro n hn
  rcases mem_nodes.1 hn with rfl | ⟨c, hc, hn⟩
  · exact ⟨hnode, fun c hc => (hchildren c hc).2⟩
  · exact (hchildren c hc).1 n hn

theorem Good.children (h : ∀ c ∈ e.children, c.Good Γ) :
    ∀ c ∈ e.children, c.WellTyped Γ ∧ (c.isDistance → c.CountsElements e) := by
  intro c hc
  obtain ⟨hroot, htyped⟩ := h c hc
  refine ⟨htyped, fun hdistance => ?_⟩
  rw [hroot] at hdistance
  cases hdistance

theorem Good.node (hnode : e.Typed Γ) (hroot : e.isDistance = false)
    (h : ∀ c ∈ e.children, c.Good Γ) : e.Good Γ :=
  ⟨hroot, WellTyped.node hnode (Good.children h)⟩

/-- More locals and objects behind those that are known change nothing. -/
theorem Typed.mono (hlocals : Γ.locals <+: Γ'.locals) (hobjects : Γ'.objects = Γ.objects)
    (h : e.Typed Γ) : e.Typed Γ' := by
  cases e with
  | var v ty loc =>
    cases v with
    | frame v =>
      obtain ⟨more, hmore⟩ := hlocals
      refine ⟨?_, h.2⟩
      rw [← hmore, List.find?_append, h.1]
      rfl
    | data v => exact ⟨by rw [hobjects]; exact h.1, h.2⟩
  | unary op operand ty loc => cases op <;> exact h
  | binary op lhs rhs ty loc => cases op <;> exact h
  | num value ty loc => exact h
  | assign lhs rhs ty loc => exact h
  | call callee args ty loc => exact h

theorem Good.mono (hlocals : Γ.locals <+: Γ'.locals) (hobjects : Γ'.objects = Γ.objects)
    (h : e.Good Γ) : e.Good Γ' :=
  ⟨h.1, fun n hn => ⟨(h.2 n hn).1.mono hlocals hobjects, (h.2 n hn).2⟩⟩

/-! ## Builders -/

namespace Good

theorem mkNum (v : Int) (loc : Loc) : (Expr.mkNum v loc).Good Γ :=
  node rfl rfl (List.forall_mem_nil _)

theorem mkUnary {op : UnaryOp} {e' : Expr} (h : e.Good Γ) (hop : op = .addr → e.isLvalue)
    (he' : Expr.mkUnary op e loc = .ok e') : e'.Good Γ := by
  have hchild : ∀ c ∈ [e], c.Good Γ := List.forall_mem_singleton.2 h
  cases op with
  | neg =>
    cases he'
    exact node rfl rfl hchild
  | addr =>
    cases he'
    refine node ⟨hop rfl, ?_⟩ rfl hchild
    cases e.ty <;> rfl
  | deref =>
    simp only [Expr.mkUnary] at he'
    split at he'
    · rename_i base hbase
      cases he'
      exact node hbase rfl hchild
    · cases he'

theorem mkAssign (ha : a.Good Γ) (hb : b.Good Γ) (hlvalue : a.isLvalue)
    (he : Expr.mkAssign a b loc = .ok e) : e.Good Γ := by
  unfold Expr.mkAssign at he
  split at he
  · cases he
  · rename_i harray
    cases he
    refine node ⟨hlvalue, Bool.eq_false_iff.2 harray, rfl⟩ rfl ?_
    exact List.forall_mem_cons.2 ⟨ha, List.forall_mem_singleton.2 hb⟩

theorem mkCall {callee : String} {args : List Expr} (hargs : ∀ arg ∈ args, arg.Good Γ)
    (hcount : args.length ≤ maxArgs) : (Expr.mkCall callee args loc).Good Γ :=
  node ⟨rfl, hcount⟩ rfl hargs

/-- An operator that is neither a sum nor a difference. -/
theorem mkBinary {op : BinaryOp} (hadd : op ≠ .add) (hsub : op ≠ .sub) (ha : a.Good Γ)
    (hb : b.Good Γ) : (Expr.mkBinary op a b loc).Good Γ := by
  have hchildren : ∀ c ∈ [a, b], c.Good Γ :=
    List.forall_mem_cons.2 ⟨ha, List.forall_mem_singleton.2 hb⟩
  cases op with
  | add => exact absurd rfl hadd
  | sub => exact absurd rfl hsub
  | mul | div | eq | ne | lt | le => exact node rfl rfl hchildren

/-- A sum or difference whose right operand is no pointer. -/
theorem mkSum {op : BinaryOp} (hop : op = .add ∨ op = .sub) (ha : a.Good Γ) (hb : b.Good Γ)
    (hright : b.ty.isPointer = false) (hscaled : Scaled a b) :
    (Expr.mkBinary op a b loc).Good Γ := by
  have hchildren : ∀ c ∈ [a, b], c.Good Γ :=
    List.forall_mem_cons.2 ⟨ha, List.forall_mem_singleton.2 hb⟩
  rcases hop with rfl | rfl
  · exact node ⟨hright, rfl, hscaled⟩ rfl hchildren
  · refine node ?_ hright hchildren
    simp only [Expr.mkBinary, Typed, hright, Bool.false_eq_true, if_false]
    exact ⟨rfl, hscaled⟩

theorem base_of_stride {ty : Ty} {size : Int} (h : ty.isPointer) (hsize : ty.stride = .ok size) :
    ∃ base, ty.base? = some base ∧ base.size = .ok size := by
  cases ty with
  | int | func ret => cases h
  | ptr base | array base len => exact ⟨base, rfl, hsize⟩

theorem isPointer_decay (ty : Ty) : ty.decay.isPointer = ty.isPointer := by
  cases ty <;> rfl

theorem combines (ha : a.Good Γ) (hb : b.Good Γ) (h : Parse.Combines a b loc e) : e.Good Γ := by
  cases h with
  | other op hadd hsub => exact mkBinary hadd hsub ha hb
  | plain op hop hleft hright =>
    refine mkSum hop ha hb hright fun hpointer => ?_
    rw [hleft] at hpointer
    cases hpointer
  | step op hop hleft hright hsize =>
    rename_i size
    obtain ⟨base, hbase, hbytes⟩ := base_of_stride hleft hsize
    refine mkSum hop ha (mkBinary (by decide) (by decide) hb (mkNum size loc)) ?_ fun _ => ?_
    · exact (isPointer_decay b.ty).trans hright
    · exact ⟨b, base, size, loc, hbase, hbytes, rfl⟩
  | distance hleft hright hsize =>
    rename_i size
    obtain ⟨base, hbase, hbytes⟩ := base_of_stride hleft hsize
    have hdifference : (Expr.binary .sub a b .int loc).WellTyped Γ := by
      refine WellTyped.node ?_ (Good.children ?_)
      · simpa [Typed, hright] using hleft
      · exact List.forall_mem_cons.2 ⟨ha, List.forall_mem_singleton.2 hb⟩
    refine ⟨rfl, WellTyped.node rfl (List.forall_mem_cons.2 ⟨⟨hdifference, fun _ => ?_⟩,
      List.forall_mem_singleton.2 ⟨(mkNum size loc).2, fun h => by cases h⟩⟩)⟩
    exact ⟨a, b, base, size, loc, rfl, hbase, hbytes, rfl⟩

theorem build {op : Parse.Operator} (ha : a.Good Γ) (hb : b.Good Γ)
    (h : op.build a b loc = .ok e) : e.Good Γ := by
  rcases Parse.Operator.build_ok h with h | h
  · exact ha.combines hb h
  · exact hb.combines ha h

end Good

end Expr

/-! ## The discipline -/

namespace Parse

/-- Every function among the objects has a body of good trees. -/
def WellTypedObjects (objects : List Object) : Prop :=
  ∀ before f after, objects = before ++ .function f :: after →
    ∀ e ∈ f.body.roots, e.Good ⟨f.locals, before⟩

namespace WellTypedObjects

variable {objects : List Object}

theorem nil : WellTypedObjects [] := by
  intro before f after h
  simp at h

/-- One more object, behind the others. -/
theorem concat {o : Object} (h : WellTypedObjects objects)
    (ho : ∀ f, o = .function f → ∀ e ∈ f.body.roots, e.Good ⟨f.locals, objects⟩) :
    WellTypedObjects (objects ++ [o]) := by
  intro before f after heq
  rcases List.eq_nil_or_concat after with rfl | ⟨after', o', rfl⟩
  · obtain ⟨rfl, hlast⟩ := List.append_inj' heq rfl
    exact ho f (List.singleton_inj.1 hlast)
  · rw [List.concat_eq_append, ← List.cons_append, ← List.append_assoc] at heq
    obtain ⟨hinit, -⟩ := List.append_inj' heq rfl
    exact h before f after' hinit

end WellTypedObjects

theorem WellTypedObjects.addGlobal {objects : List Object} (h : WellTypedObjects objects)
    (v : Global) : WellTypedObjects (objects ++ [.global v]) :=
  h.concat fun f hf => by cases hf

theorem WellTypedObjects.addFunction {objects : List Object} {f : Function}
    (h : WellTypedObjects objects) (hbody : ∀ e ∈ f.body.roots, e.Good ⟨f.locals, objects⟩) :
    WellTypedObjects (objects ++ [.function f]) :=
  h.concat fun g hg => by
    cases hg
    exact hbody

/-- What a name denotes is in the context of the function being read. -/
theorem State.typed_var {s : State} {x : String} {v : Var} {loc : Loc} (h : s.var? x = some v) :
    (Expr.mkVar v loc).Good ⟨s.scope.locals, s.objects⟩ := by
  refine Expr.Good.node ?_ rfl (List.forall_mem_nil _)
  unfold State.var? at h
  split at h
  · rename_i u hu
    cases h
    refine ⟨?_, rfl⟩
    have hname : u.name = x := by simpa using List.find?_some hu
    rw [hname]
    exact hu
  · obtain ⟨u, hu, rfl⟩ := Option.map_eq_some_iff.1 h
    obtain ⟨o, ho, hou⟩ := List.mem_filterMap.1 (List.mem_of_find?_eq_some hu)
    cases o with
    | global w => cases hou; exact ⟨ho, rfl⟩
    | function f => cases hou

/-- Reading well-typed trees, whatever faults there are. -/
def wellTyped : Discipline where
  Inv s := WellTypedObjects s.objects
  Tree s e := e.Good ⟨s.scope.locals, s.objects⟩
  Shape _ := True
  Value _ := True
  Name _ := True
  Allowed _ := True
  value _ _ _ _ := trivial
  name _ _ _ := trivial
  read hs _ := hs
  record _ hs := hs
  wait _ hs _ := hs
  grows he hgrows := he.mono hgrows.locals hgrows.objects
  num _ := .mkNum _ _
  sizeof _ _ := .mkNum _ _
  sizeof_fault _ _ := trivial
  var _ hv := State.typed_var hv
  unary he hop he' := he.mkUnary hop he'
  binary _ hl hr he := hl.build hr he
  binary_fault _ _ _ _ := trivial
  assign hl hr hlvalue he := hl.mkAssign hr hlvalue he
  call hargs hcount _ := .mkCall hargs hcount
  int := trivial
  ptr _ := trivial
  decay _ := trivial
  array _ _ _ _ := trivial
  size_fault _ _ := trivial
  enter hs := hs
  declareLocal hs _ _ _ _ _ _ _ := hs
  offset_fault _ _ _ _ _ _ := trivial
  declare _ _ _ hs _ _ := hs
  define _ hs _ _ _ := hs
  declareGlobal hs _ _ _ _ := hs.addGlobal _
  defineFunction _ _ _ _ _ _ _ _ hs _ hbody := hs.addFunction hbody

/-- **What is read is well typed.** Take any function in what was read from any tokens, with or
without issues. Every node of its body has the type that its form and its operands give it; its
variables are its own locals and global variables before it; and two pointers are subtracted only
where the difference is divided by the size of what they point to, never as a tree of its own. -/
theorem parse_wellTyped {tokens : List Token} {parsed : Parsed} {before after : List Object}
    {f : Function} (h : parse tokens = .ok parsed)
    (hf : parsed.program.objects = before ++ .function f :: after) :
    (∀ n ∈ f.body.nodes, n.Typed ⟨f.locals, before⟩) ∧
    (∀ n ∈ f.body.nodes, ∀ c ∈ n.children, c.isDistance → c.CountsElements n) ∧
    ∀ e ∈ f.body.roots, e.isDistance = false := by
  have hinit : wellTyped.Inv (.ofTokens tokens) := WellTypedObjects.nil
  have hparse := wellTyped.parse_keeps hinit
  rw [h] at hparse
  obtain ⟨s, hs, rfl⟩ := hparse
  have hbody : ∀ e ∈ f.body.roots, e.Good ⟨f.locals, before⟩ := hs before f after hf
  refine ⟨?_, ?_, fun e he => (hbody e he).1⟩
  · intro n hn
    obtain ⟨e, he, hn⟩ := Stmt.mem_nodes.1 hn
    exact ((hbody e he).2 n hn).1
  · intro n hn
    obtain ⟨e, he, hn⟩ := Stmt.mem_nodes.1 hn
    exact ((hbody e he).2 n hn).2

/-- `int f(int *p) { return p - p; }`, all of it at one place. -/
def differenceTokens : List Token :=
  [⟨.keyword, "int", none, .start⟩, ⟨.ident, "f", none, .start⟩, ⟨.punctuator, "(", none, .start⟩,
    ⟨.keyword, "int", none, .start⟩, ⟨.punctuator, "*", none, .start⟩, ⟨.ident, "p", none, .start⟩,
    ⟨.punctuator, ")", none, .start⟩, ⟨.punctuator, "\x7b", none, .start⟩,
    ⟨.keyword, "return", none, .start⟩, ⟨.ident, "p", none, .start⟩,
    ⟨.punctuator, "-", none, .start⟩, ⟨.ident, "p", none, .start⟩, ⟨.punctuator, ";", none, .start⟩,
    ⟨.punctuator, "\x7d", none, .start⟩]

/-- The function that these tokens are read as. -/
def difference : Function :=
  let p : Local := ⟨"p", .ptr .int, -8⟩
  let e : Expr := .var (.frame p) (.ptr .int) .start
  { name := "f"
    params := [p]
    ty := .func .int
    locals := [p]
    body := .block [.ret (some (.binary .div (.binary .sub e e .int .start)
      (.num 8 .int .start) .int .start))]
    stackSize := 8 }

theorem difference_wellTyped :
    ∃ parsed, parse differenceTokens = .ok parsed ∧ parsed.program.objects = [.function difference] ∧
      (∀ n ∈ difference.body.nodes, n.Typed ⟨difference.locals, []⟩) ∧
      (∀ n ∈ difference.body.nodes, ∀ c ∈ n.children, c.isDistance → c.CountsElements n) ∧
      ∀ e ∈ difference.body.roots, e.isDistance = false := by
  have hparse : parse differenceTokens =
      .ok ⟨⟨[.function difference]⟩, ⟨[("f", ⟨[.ptr .int], true⟩)]⟩, []⟩ := by rfl
  exact ⟨_, hparse, rfl, parse_wellTyped hparse (List.nil_append _).symm⟩

end Parse

end WordC
