import WordC.Proofs.Blocks
import WordC.Proofs.Safety
import WordC.Proofs.Typing

/-!
# The layout of a frame

Locals are laid out from the frame base downwards in the order of their declaration, so whatever was
declared, rejected and skipped in between, no two of them share a byte.

* `Laid`: the layout, one local below the other. Everything else about it follows by induction on the
  declarations: `Laid.within`, `Laid.descending`, `Laid.total`, `Laid.offset_of_words`.
* `laidOut`: the discipline of scopes that are laid out.
* `Expr.narrow_code`: a displacement in the code of an expression is that of one of its variables.
* `parse_frameSound`: the frame of every function that was read, and the numbers in its code that
  must fit 32 bits.
-/
namespace WordC

open Asm

/-! ## Sizes -/

namespace Ty

/-- Values of the type are stored in words. -/
def Stored : Ty → Prop
  | int => True
  | ptr _ => True
  | array base _ => base.Stored
  | func _ => False

theorem Stored.dvd_size {ty : Ty} (h : ty.Stored) : ∀ {n : Int}, ty.size = .ok n → 8 ∣ n := by
  induction ty with
  | int => intro n hn; cases hn; decide
  | ptr base => intro n hn; cases hn; decide
  | array base len ih =>
    intro n hn
    obtain ⟨size, hsize, hn⟩ := Word.bind_eq_ok_iff.1 hn
    obtain ⟨-, rfl⟩ := Word.check_eq_ok_iff.1 hn
    exact Int.dvd_mul_of_dvd_left (ih h hsize)
  | func ret => cases h

theorem Stored.decay {ty : Ty} (h : ty.Stored) : ty.decay.Stored := by
  cases ty with
  | array base len => trivial
  | int | ptr base => trivial
  | func ret => cases h

/-- What is stored and no array takes one word. -/
theorem Stored.size_of_scalar {ty : Ty} (h : ty.Stored) (hscalar : ty.isArray = false) :
    ty.size = .ok 8 := by
  cases ty with
  | int | ptr base => rfl
  | array base len => cases hscalar
  | func ret => cases h

end Ty

/-- The bytes that a local takes. -/
def Local.bytes (v : Local) : Int := (v.ty.size.toOption).getD 0

theorem Local.bytes_of_size {v : Local} {n : Int} (h : v.ty.size = .ok n) : v.bytes = n := by
  simp [bytes, h, Except.toOption]

/-- The local takes the byte at this displacement from the frame base. -/
def Local.Covers (v : Local) (a : Int) : Prop := v.offset ≤ a ∧ a < v.offset + v.bytes

/-- The bytes that all of the locals take. -/
def totalBytes : List Local → Int
  | [] => 0
  | v :: vs => v.bytes + totalBytes vs

theorem totalBytes_concat (vs : List Local) (v : Local) :
    totalBytes (vs ++ [v]) = totalBytes vs + v.bytes := by
  induction vs with
  | nil => simp [totalBytes]
  | cons w vs ih => simp only [List.cons_append, totalBytes, ih]; omega

/-! ## Layouts -/

/-- The locals stand one below the other under the frame base and take so many bytes. -/
inductive Laid : List Local → Int → Prop where
  | nil : Laid [] 0
  | concat {vs : List Local} {size : Int} {v : Local} : Laid vs size → v.ty.size = .ok v.bytes →
    0 ≤ v.bytes → 8 ∣ v.bytes → v.offset = -(size + v.bytes) → Laid (vs ++ [v]) (size + v.bytes)

namespace Laid

variable {vs : List Local} {size : Int}

theorem nonneg (h : Laid vs size) : 0 ≤ size := by
  induction h with
  | nil => decide
  | concat _ _ hpos _ _ ih => omega

theorem dvd (h : Laid vs size) : 8 ∣ size := by
  induction h with
  | nil => decide
  | concat _ _ _ hdvd _ ih => exact Int.dvd_add ih hdvd

theorem total (h : Laid vs size) : size = totalBytes vs := by
  induction h with
  | nil => rfl
  | concat _ _ _ _ _ ih => rw [totalBytes_concat, ← ih]

/-- Every local lies within the bytes that are taken. -/
theorem within (h : Laid vs size) : ∀ v ∈ vs, v.ty.size = .ok v.bytes ∧ 8 ∣ v.bytes ∧
    8 ∣ v.offset ∧ 0 ≤ v.bytes ∧ -size ≤ v.offset ∧ v.offset + v.bytes ≤ 0 := by
  induction h with
  | nil => exact List.forall_mem_nil _
  | concat hvs hsize hpos hdvd hoffset ih =>
    rename_i vs size v
    have htotal := hvs.dvd
    have hfree := hvs.nonneg
    refine List.forall_mem_append.2 ⟨fun w hw => ?_, List.forall_mem_singleton.2 ?_⟩
    · obtain ⟨hw₁, hw₂, hw₃, hw₄, hw₅, hw₆⟩ := ih w hw
      exact ⟨hw₁, hw₂, hw₃, hw₄, by omega, hw₆⟩
    · exact ⟨hsize, hdvd, by omega, hpos, by omega, by omega⟩

/-- A later local ends where the earlier ones begin, or below. -/
theorem descending (h : Laid vs size) : vs.Pairwise fun v w => w.offset + w.bytes ≤ v.offset := by
  induction h with
  | nil => exact .nil
  | concat hvs hsize hpos hdvd hoffset ih =>
    refine List.pairwise_append.2 ⟨ih, List.pairwise_singleton _ _, fun v hv w hw => ?_⟩
    obtain ⟨-, -, -, -, hbelow, -⟩ := hvs.within v hv
    rw [List.mem_singleton.1 hw]
    omega

/-- The first of the locals are laid out by themselves. -/
theorem of_isPrefix (h : Laid vs size) : ∀ {us : List Local}, us <+: vs → ∃ size', Laid us size' := by
  induction h with
  | nil =>
    intro us hus
    exact ⟨0, List.prefix_nil.1 hus ▸ .nil⟩
  | concat hvs hsize hpos hdvd hoffset ih =>
    intro us hus
    rcases List.prefix_concat_iff.1 hus with rfl | hus
    · exact ⟨_, .concat hvs hsize hpos hdvd hoffset⟩
    · exact ih hus

/-- Locals of one word each stand at the multiples of the word size. -/
theorem offset_of_words (h : Laid vs size) (hwords : ∀ v ∈ vs, v.bytes = 8) :
    size = 8 * vs.length ∧ ∀ (i : Nat) v, vs[i]? = some v → v.offset = -8 * (i + 1) := by
  induction h with
  | nil => exact ⟨rfl, fun i v hv => by simp at hv⟩
  | concat hvs hsize hpos hdvd hoffset ih =>
    rename_i vs size v
    obtain ⟨hinit, hlast⟩ := List.forall_mem_append.1 hwords
    obtain ⟨htotal, hoffsets⟩ := ih hinit
    have hword : v.bytes = 8 := hlast v List.mem_cons_self
    refine ⟨by simp only [List.length_append, List.length_singleton]; omega, fun i w hw => ?_⟩
    rw [List.getElem?_append] at hw
    split at hw
    · exact hoffsets i w hw
    · rename_i hi
      obtain ⟨hzero, hsame⟩ := List.getElem?_eq_some_iff.1 hw
      simp only [List.length_singleton] at hzero
      simp only [show i - vs.length = 0 by omega, List.getElem_cons_zero] at hsame
      rw [← hsame]
      omega

end Laid

/-! ## The discipline -/

namespace Parse

/-- The locals are laid out in a frame of the given size, under names of their own. -/
structure FrameLaid (locals : List Local) (size : Int) : Prop where
  laid : Laid locals size
  stored : ∀ v ∈ locals, v.ty.Stored
  apart : (locals.map Local.name).Nodup
  bounded : size ≤ maxFrame

theorem FrameLaid.empty : FrameLaid Scope.empty.locals Scope.empty.size :=
  ⟨.nil, List.forall_mem_nil _, List.nodup_nil, by decide⟩

/-- The scope and every function read so far are laid out, and the functions open with their
parameters. -/
structure State.Laid (s : State) : Prop where
  tokens : Nonnegative s.rest
  scope : FrameLaid s.scope.locals s.scope.size
  functions : ∀ f, .function f ∈ s.objects →
    FrameLaid f.locals f.stackSize ∧ Scope.OpensWith ⟨f.locals, f.stackSize⟩ f.params

namespace State.Laid

variable {s : State}

theorem declareLocal (h : s.Laid) {x : String} {ty : Ty} {size total offset : Int} (hty : ty.Sound)
    (hstored : ty.Stored) (hnew : s.scope.find? x = none) (hsize : ty.size = .ok size)
    (htotal : Word.add s.scope.size size = .ok total) (hframe : total ≤ maxFrame)
    (hoffset : Word.neg total = .ok offset) :
    State.Laid { s with scope := ⟨s.scope.locals ++ [⟨x, ty, offset⟩], total⟩ } := by
  obtain ⟨n, hn, hpos⟩ := hty.size
  cases hsize.symm.trans hn
  obtain ⟨-, rfl⟩ := Word.check_eq_ok_iff.1 htotal
  obtain ⟨-, rfl⟩ := Word.check_eq_ok_iff.1 hoffset
  have hbytes : (Local.mk x ty (-(s.scope.size + size))).bytes = size := Local.bytes_of_size hsize
  refine { h with scope := ⟨?_, ?_, ?_, hframe⟩ }
  · rw [← hbytes] at hsize hpos ⊢
    exact .concat h.scope.laid hsize hpos (hstored.dvd_size hsize) rfl
  · exact List.forall_mem_append.2 ⟨h.scope.stored, List.forall_mem_singleton.2 hstored⟩
  · rw [List.map_append]
    refine h.scope.apart.append (List.nodup_singleton _) ?_
    simp only [Scope.find?, List.find?_eq_none, beq_iff_eq] at hnew
    simpa [List.disjoint_left] using hnew

theorem addGlobal (h : s.Laid) (v : Global) :
    State.Laid { s with objects := s.objects ++ [.global v] } :=
  { h with functions := fun f hf => h.functions f (by simpa using hf) }

theorem addFunction (h : s.Laid) {x : String} {params : List Local} {ty : Ty} {body : Stmt}
    (hparams : s.scope.OpensWith params) :
    State.Laid { s with objects := s.objects ++
      [.function ⟨x, params, ty, s.scope.locals, body, s.scope.size⟩] } := by
  refine { h with functions := fun f hf => ?_ }
  rcases List.mem_append.1 hf with hf | hf
  · exact h.functions f hf
  · cases List.mem_singleton.1 hf
    exact ⟨h.scope, hparams⟩

end State.Laid

/-- Reading into laid out frames, whatever faults there are. -/
def laidOut : Discipline where
  Inv := State.Laid
  Tree _ _ := True
  Shape ty := ty.Sound ∧ ty.Stored
  Value v := 0 ≤ v
  Name _ := True
  Allowed _ := True
  value {s t ts v} hs hrest hkind hv :=
    hs.tokens t (by rw [hrest]; exact List.mem_cons_self) hkind v hv
  name _ _ _ := trivial
  read hs hrest := { hs with tokens := fun t ht => hs.tokens t (hrest.subset ht) }
  record _ hs := { hs with }
  wait _ hs _ := { hs with }
  grows _ _ := trivial
  num _ := trivial
  sizeof _ _ := trivial
  sizeof_fault _ _ := trivial
  var _ _ := trivial
  unary _ _ _ := trivial
  binary _ _ _ _ := trivial
  binary_fault _ _ _ _ := trivial
  assign _ _ _ _ := trivial
  call _ _ _ := trivial
  int := ⟨trivial, trivial⟩
  ptr h := ⟨h.1, trivial⟩
  decay h := ⟨h.1.decay, h.2.decay⟩
  array h hlen hsize hbytes := ⟨h.1.array hlen hsize hbytes, h.2⟩
  size_fault _ _ := trivial
  enter hs := { hs with scope := .empty }
  declareLocal hs _ hty hnew hsize htotal hframe hoffset :=
    hs.declareLocal hty.1 hty.2 hnew hsize htotal hframe hoffset
  offset_fault _ _ _ _ _ _ := trivial
  declare _ _ _ hs _ _ := { hs with }
  define _ hs _ _ _ := { hs with }
  declareGlobal hs _ _ _ _ := hs.addGlobal _
  defineFunction _ _ _ _ _ _ _ _ hs hparams _ := hs.addFunction hparams

theorem parse_laid {tokens : List Token} {parsed : Parsed} (htokens : Nonnegative tokens)
    (h : parse tokens = .ok parsed) : ∀ f, .function f ∈ parsed.program.objects →
      FrameLaid f.locals f.stackSize ∧ Scope.OpensWith ⟨f.locals, f.stackSize⟩ f.params := by
  have hinit : laidOut.Inv (.ofTokens tokens) :=
    { tokens := fun t ht => htokens t ((List.takeWhile_prefix _).subset ht)
      scope := .empty
      functions := fun _ hf => by cases hf }
  have hparse := laidOut.parse_keeps hinit
  rw [h] at hparse
  obtain ⟨s, hs, rfl⟩ := hparse
  exact hs.functions

end Parse

/-! ## Numbers in the code -/

/-- The number is representable in 32 bits. -/
def Word.FitsHalf (n : Int) : Prop := -2147483648 ≤ n ∧ n ≤ 2147483647

/-- The number in an instruction that has room for only 32 bits of it: a displacement from the frame
base, or what is added to a register or taken from it. -/
def Asm.Instr.narrow? : Instr → Option Int
  | spill _ offset => some offset
  | frameAddr offset _ => some offset
  | addConst n _ => some n
  | subConst n _ => some n
  | _ => none

namespace Expr

/-- Every narrow number in the code is the displacement of one of the variables, or the word that
aligns a call. -/
def Narrow (vars : List Expr) (is : List Instr) : Prop :=
  ∀ i ∈ is, ∀ n ∈ i.narrow?, n = 8 ∨ ∃ v ty loc, var (.frame v) ty loc ∈ vars ∧ n = v.offset

theorem Narrow.nil {vars : List Expr} : Narrow vars [] := List.forall_mem_nil _

theorem Narrow.append {vars : List Expr} {is js : List Instr} (h : Narrow vars is)
    (h' : Narrow vars js) : Narrow vars (is ++ js) :=
  List.forall_mem_append.2 ⟨h, h'⟩

theorem Narrow.mono {vars vars' : List Expr} {is : List Instr} (h : Narrow vars is)
    (hsub : vars ⊆ vars') : Narrow vars' is := by
  intro i hi n hn
  refine (h i hi n hn).imp_right ?_
  rintro ⟨v, ty, loc, hv, rfl⟩
  exact ⟨v, ty, loc, hsub hv, rfl⟩

/-- Instructions without narrow numbers. -/
theorem Narrow.plain {vars : List Expr} {is : List Instr} (h : ∀ i ∈ is, i.narrow? = none) :
    Narrow vars is := by
  intro i hi n hn
  rw [h i hi] at hn
  cases hn

theorem Narrow.push {vars : List Expr} (r : Reg) : Narrow vars [.push r] :=
  .plain (List.forall_mem_singleton.2 rfl)

theorem narrow_loadInstrs (vars : List Expr) (ty : Ty) : Narrow vars (loadInstrs ty) := by
  apply Narrow.plain
  unfold loadInstrs
  split <;> simp [Instr.narrow?]

theorem narrow_binary (vars : List Expr) (op : BinaryOp) : Narrow vars op.instrs := by
  apply Narrow.plain
  cases op <;> simp [BinaryOp.instrs, Instr.narrow?]

theorem narrow_popArgs (vars : List Expr) (count : Nat) : Narrow vars (popArgs count) := by
  apply Narrow.plain
  intro i hi
  obtain ⟨r, -, rfl⟩ := List.mem_map.1 hi
  rfl

theorem narrow_varInstrs (v : Var) (ty : Ty) (loc : Loc) : Narrow [var v ty loc] (varInstrs v) := by
  cases v with
  | data v => exact .plain (by simp [varInstrs, Instr.narrow?])
  | frame v =>
    intro i hi n hn
    rw [List.mem_singleton.1 hi] at hn
    cases hn
    exact .inr ⟨v, ty, loc, List.mem_singleton_self _, rfl⟩

theorem narrow_callInstrs (vars : List Expr) (callee : String) (depth : Nat) :
    Narrow vars (callInstrs callee depth) := by
  intro i hi n hn
  unfold callInstrs at hi
  split at hi
  · simp only [List.mem_cons, List.not_mem_nil, or_false] at hi
    rcases hi with rfl | rfl | rfl | rfl <;> cases hn <;> exact .inl rfl
  · simp only [List.mem_cons, List.not_mem_nil, or_false] at hi
    rcases hi with rfl | rfl <;> cases hn

theorem narrow_pushArgs {vars : List Expr} {args : List Expr}
    (h : ∀ arg ∈ args, ∀ depth, Narrow vars (arg.code depth)) :
    ∀ depth, Narrow vars (pushArgs depth args) := by
  induction args with
  | nil => intro depth; exact .nil
  | cons arg args ih =>
    intro depth
    obtain ⟨harg, hargs⟩ := List.forall_mem_cons.1 h
    exact ((harg depth).append (.push .rax)).append (ih hargs (depth + 1))

/-- The narrow numbers in the code of an expression, and in that of its address, come from its own
variables. -/
theorem narrow_code (e : Expr) :
    ∀ depth, Narrow e.nodes (e.code depth) ∧ Narrow e.nodes (e.addressCode depth) := by
  induction e with
  | num value ty loc => intro depth; exact ⟨.plain (by simp [code, Instr.narrow?]), .nil⟩
  | var v ty loc =>
    intro depth
    have hv := narrow_varInstrs v ty loc
    exact ⟨hv.append (narrow_loadInstrs _ ty), hv⟩
  | unary op operand ty loc ih =>
    intro depth
    have hsub : operand.nodes ⊆ (unary op operand ty loc).nodes := List.subset_cons_self _ _
    obtain ⟨hcode, haddress⟩ := ih depth
    have hcode := hcode.mono hsub
    cases op with
    | neg => exact ⟨hcode.append (.plain (by simp [Instr.narrow?])), .nil⟩
    | addr => exact ⟨haddress.mono hsub, .nil⟩
    | deref => exact ⟨hcode.append (narrow_loadInstrs _ ty), hcode⟩
  | binary op lhs rhs ty loc ihl ihr =>
    intro depth
    have hl : lhs.nodes ⊆ (binary op lhs rhs ty loc).nodes :=
      List.subset_cons_of_subset _ (List.subset_append_left _ _)
    have hr : rhs.nodes ⊆ (binary op lhs rhs ty loc).nodes :=
      List.subset_cons_of_subset _ (List.subset_append_right _ _)
    have hright := (ihr depth).1.mono hr
    have hleft := (ihl (depth + 1)).1.mono hl
    have hpushed := (hright.append (.push .rax)).append hleft
    exact ⟨(hpushed.append (.plain (by simp [Instr.narrow?]))).append (narrow_binary _ op), .nil⟩
  | assign lhs rhs ty loc ihl ihr =>
    intro depth
    have hl : lhs.nodes ⊆ (assign lhs rhs ty loc).nodes :=
      List.subset_cons_of_subset _ (List.subset_append_left _ _)
    have hr : rhs.nodes ⊆ (assign lhs rhs ty loc).nodes :=
      List.subset_cons_of_subset _ (List.subset_append_right _ _)
    have hplace := (ihl depth).2.mono hl
    have hvalue := (ihr (depth + 1)).1.mono hr
    have hpushed := (hplace.append (.push .rax)).append hvalue
    exact ⟨hpushed.append (.plain (by simp [Instr.narrow?])), .nil⟩
  | call callee args ty loc ih =>
    intro depth
    have hargs : ∀ arg ∈ args, ∀ depth, Narrow (call callee args ty loc).nodes (arg.code depth) := by
      intro arg harg depth
      refine (ih arg harg depth).1.mono (List.subset_cons_of_subset _ fun n hn => ?_)
      exact mem_nodesAll.2 ⟨arg, harg, hn⟩
    have hpushed := (narrow_pushArgs hargs depth).append (narrow_popArgs _ args.length)
    exact ⟨hpushed.append (narrow_callInstrs _ callee depth), .nil⟩

end Expr

/-- The narrow numbers in the body of a function come from the variables of its expressions. -/
theorem Function.narrow_bodyLines (f : Function) (used : Nat) {i : Instr}
    (hi : .instr i ∈ f.bodyLines used) {n : Int} (hn : n ∈ i.narrow?) :
    n = 8 ∨ ∃ v ty loc, .var (.frame v) ty loc ∈ f.body.nodes ∧ n = v.offset := by
  obtain ⟨step, hstep, hi⟩ := List.mem_flatMap.1 hi
  cases step with
  | eval e =>
    have he : e ∈ f.body.roots := by
      rw [← f.body.evaluated_flow f.name used]
      exact List.mem_filterMap.2 ⟨_, hstep, rfl⟩
    obtain ⟨j, hj, hji⟩ := List.mem_map.1 hi
    cases hji
    refine ((e.narrow_code 0).1 i hj n hn).imp_right ?_
    rintro ⟨v, ty, loc, hv, rfl⟩
    exact ⟨v, ty, loc, Stmt.mem_nodes.2 ⟨e, he, hv⟩, rfl⟩
  | branchZero target =>
    simp only [Flow.lines, List.mem_cons, List.not_mem_nil, or_false, Line.instr.injEq] at hi
    rcases hi with rfl | rfl <;> cases hn
  | jump target =>
    cases List.mem_singleton.1 hi
    cases hn
  | label l => cases List.mem_singleton.1 hi

/-- The variables of the frame in what was read are locals of their function. -/
theorem Parse.mem_locals_of_read {tokens : List Token} {parsed : Parsed} {f : Function}
    (h : parse tokens = .ok parsed) (hf : .function f ∈ parsed.program.objects) {v : Local} {ty : Ty}
    {loc : Loc} (hv : .var (.frame v) ty loc ∈ f.body.nodes) : v ∈ f.locals := by
  have hinit : wellTyped.Inv (.ofTokens tokens) := WellTypedObjects.nil
  have hparse := wellTyped.parse_keeps hinit
  rw [h] at hparse
  obtain ⟨s, hs, rfl⟩ := hparse
  obtain ⟨before, after, hsplit⟩ := List.append_of_mem hf
  obtain ⟨e, he, hv⟩ := Stmt.mem_nodes.1 hv
  have hgood : e.Good ⟨f.locals, before⟩ := hs before f after hsplit e he
  exact List.mem_of_find?_eq_some (hgood.2 _ hv).1.1

/-! ## The frame of a function -/

/-- Rounding up to a multiple of 16 adds as little as possible. -/
theorem Word.alignTo_bounds {n m : Int} (hpos : 0 ≤ n) (h : Word.alignTo n 16 = .ok m) :
    16 ∣ m ∧ n ≤ m ∧ m < n + 16 := by
  obtain ⟨sum, hsum, h⟩ := Word.bind_eq_ok_iff.1 h
  obtain ⟨-, rfl⟩ := Word.check_eq_ok_iff.1 hsum
  obtain ⟨most, hmost, h⟩ := Word.bind_eq_ok_iff.1 h
  obtain ⟨-, rfl⟩ := Word.check_eq_ok_iff.1 hmost
  obtain ⟨count, hcount, h⟩ := Word.bind_eq_ok_iff.1 h
  obtain ⟨-, rfl⟩ := Word.check_eq_ok_iff.1 hcount
  obtain ⟨-, rfl⟩ := Word.check_eq_ok_iff.1 h
  rw [Int.tdiv_eq_ediv_of_nonneg (by omega)]
  omega

/-- What is asked of the frame of a function. -/
structure Function.FrameSound (f : Function) : Prop where
  /-- The locals are told apart by their names. -/
  apart : (f.locals.map Local.name).Nodup
  sized : ∀ v ∈ f.locals, v.ty.size = .ok v.bytes
  disjoint : f.locals.Pairwise fun v w => ∀ a, v.Covers a → ¬w.Covers a
  inside : ∀ v ∈ f.locals, ∀ a, v.Covers a → -f.stackSize ≤ a ∧ a < 0
  total : f.stackSize = totalBytes f.locals
  words : ∀ v ∈ f.locals, 8 ∣ v.offset ∧ 8 ∣ v.bytes
  bounded : 0 ≤ f.stackSize ∧ f.stackSize ≤ 2147483647 - 15
  params : ∀ (i : Nat) v, f.params[i]? = some v →
    v ∈ f.locals ∧ v.offset = -8 * (i + 1) ∧ v.bytes = 8
  /-- What the function reserves is the least multiple of 16 that is enough, and the numbers in its
  code are as small as they have to be. -/
  reserved : ∃ frame, Word.alignTo f.stackSize 16 = .ok frame ∧ 16 ∣ frame ∧ f.stackSize ≤ frame ∧
    (∀ m, 16 ∣ m → f.stackSize ≤ m → frame ≤ m) ∧ frame ≤ 2147483647 ∧
    ∀ used, f.emit used = .ok (f.lines used frame) ∧
      ∀ i, .instr i ∈ f.lines used frame → ∀ n ∈ i.narrow?, Word.FitsHalf n

namespace Parse.FrameLaid

variable {f : Function}

/-- The parameters stand at the top of the frame, one word each. -/
theorem params (h : FrameLaid f.locals f.stackSize)
    (hparams : Scope.OpensWith ⟨f.locals, f.stackSize⟩ f.params) (i : Nat) (v : Local)
    (hv : f.params[i]? = some v) : v ∈ f.locals ∧ v.offset = -8 * (i + 1) ∧ v.bytes = 8 := by
  obtain ⟨hfirst, hscalar⟩ := hparams
  obtain ⟨size, hlaid⟩ := h.laid.of_isPrefix hfirst
  have hwords : ∀ v ∈ f.params, v.bytes = 8 := fun v hv =>
    Local.bytes_of_size ((h.stored v (hfirst.subset hv)).size_of_scalar (hscalar v hv))
  have hmem := List.mem_of_getElem? hv
  exact ⟨hfirst.subset hmem, (hlaid.offset_of_words hwords).2 i v hv, hwords v hmem⟩

/-- Displacements of locals are no further from the base than the frame reaches. -/
theorem fitsHalf (h : FrameLaid f.locals f.stackSize) {v : Local} (hv : v ∈ f.locals) :
    Word.FitsHalf v.offset := by
  obtain ⟨-, -, -, hpos, hlow, hhigh⟩ := h.laid.within v hv
  have := h.bounded
  unfold maxFrame at this
  exact ⟨by omega, by omega⟩

/-- The narrow numbers in the code of a function, if its variables are its own. -/
theorem narrow_lines (h : FrameLaid f.locals f.stackSize)
    (hparams : Scope.OpensWith ⟨f.locals, f.stackSize⟩ f.params)
    (hvars : ∀ v ty loc, .var (.frame v) ty loc ∈ f.body.nodes → v ∈ f.locals) {frame : Int}
    (hpos : 0 ≤ frame) (hmax : frame ≤ 2147483647) (used : Nat) {i : Instr}
    (hi : .instr i ∈ f.lines used frame) {n : Int} (hn : n ∈ i.narrow?) : Word.FitsHalf n := by
  simp only [Function.lines, List.mem_append, List.mem_cons, List.mem_map, reduceCtorEq, false_or,
    Line.instr.injEq, exists_eq_right, List.not_mem_nil] at hi
  rcases hi with ((hi | hi) | hi) | hi
  · simp only [Function.prologue, List.mem_append, List.mem_cons, List.not_mem_nil, or_false] at hi
    rcases hi with (rfl | rfl) | hi
    · cases hn
    · cases hn
    · split at hi
      · cases List.mem_singleton.1 hi
        cases hn
        exact ⟨by omega, hmax⟩
      · cases hi
  · obtain ⟨⟨v, reg⟩, hv, rfl⟩ := List.mem_map.1 hi
    cases hn
    exact h.fitsHalf (hparams.1.subset (List.of_mem_zip hv).1)
  · rcases f.narrow_bodyLines used hi hn with rfl | ⟨v, ty, loc, hv, rfl⟩
    · exact ⟨by decide, by decide⟩
    · exact h.fitsHalf (hvars v ty loc hv)
  · simp only [Function.epilogue, List.mem_cons, List.not_mem_nil, or_false] at hi
    rcases hi with rfl | rfl | rfl <;> cases hn

/-- Such a frame is sound, if nothing is in the way of emitting the function. -/
theorem frameSound (h : FrameLaid f.locals f.stackSize)
    (hparams : Scope.OpensWith ⟨f.locals, f.stackSize⟩ f.params)
    (hvars : ∀ v ty loc, .var (.frame v) ty loc ∈ f.body.nodes → v ∈ f.locals)
    (hbody : f.body.fault? = none) : f.FrameSound where
  apart := h.apart
  sized v hv := (h.laid.within v hv).1
  disjoint := h.laid.descending.imp fun hbelow a hv hw => by
    simp only [Local.Covers] at hv hw
    omega
  inside v hv a ha := by
    obtain ⟨-, -, -, -, hlow, hhigh⟩ := h.laid.within v hv
    simp only [Local.Covers] at ha
    omega
  total := h.laid.total
  words v hv := ⟨(h.laid.within v hv).2.2.1, (h.laid.within v hv).2.1⟩
  bounded := ⟨h.laid.nonneg, h.bounded⟩
  params := h.params hparams
  reserved := by
    have hpos := h.laid.nonneg
    have hbounded := h.bounded
    obtain ⟨frame, hframe⟩ := Word.alignTo_ok hpos hbounded
    obtain ⟨hdvd, hle, hlt⟩ := Word.alignTo_bounds hpos hframe
    unfold maxFrame at hbounded
    have hmax : frame ≤ 2147483647 := by omega
    refine ⟨frame, hframe, hdvd, hle, fun m hm hsize => by omega, hmax, fun used => ⟨?_, ?_⟩⟩
    · simp [Function.emit, hframe, hbody, bind, Except.bind, pure, Except.pure]
    · intro i hi n hn
      exact h.narrow_lines hparams hvars (by omega) hmax used hi hn

end Parse.FrameLaid

/-- **Frames are sound.** Any tokens without negative numbers are read to the end, with or without
issues. In every function that was read, each local has bytes of its own within the frame, at a
multiple of the word size; the frame is as large as its locals together and no larger than a
displacement can reach; the parameters come first, one word each; and what the function reserves is
the frame rounded up to the next multiple of 16. -/
theorem Parse.parse_frameSound {tokens : List Token} (htokens : Nonnegative tokens) :
    ∃ parsed, parse tokens = .ok parsed ∧ ∀ f ∈ parsed.program.functions, f.FrameSound := by
  obtain ⟨parsed, hparsed, hsound⟩ := parse_sound htokens
  refine ⟨parsed, hparsed, fun f hf => ?_⟩
  have hf := Program.function_mem hf
  obtain ⟨hlaid, hparams⟩ := parse_laid htokens hparsed f hf
  obtain ⟨-, -, hnodes⟩ := hsound _ hf
  exact hlaid.frameSound hparams (fun v ty loc => mem_locals_of_read hparsed hf)
    (f.body.fault?_eq_none_iff.2 hnodes)

/-- A function in which a name is declared twice, an array is too large for any frame and another one
has no element. -/
def crowdedSource : String :=
  "int f(int a, int b[3]) \x7b int a; int c[2][0], d[268435456]; int e[2][3], *p; " ++
    "return e[1][2] + *b; \x7d"

theorem crowdedSource_frameSound :
    ∃ parsed, Parse.parse (Source.tokenize crowdedSource).tokens = .ok parsed ∧
      parsed.issues.length = 2 ∧
      parsed.program.functions.map (fun f => (f.stackSize, f.locals.map Local.offset)) =
        [(72, [-8, -16, -16, -64, -72])] ∧
      ∀ f ∈ parsed.program.functions, f.FrameSound := by
  obtain ⟨parsed, hparsed, hsound⟩ :=
    Parse.parse_frameSound (Source.nonnegative_tokenize crowdedSource)
  have hframe : ∀ parsed ∈ (Parse.parse (Source.tokenize crowdedSource).tokens).toOption,
      parsed.issues.length = 2 ∧
      parsed.program.functions.map (fun f => (f.stackSize, f.locals.map Local.offset)) =
        [(72, [-8, -16, -16, -64, -72])] := by decide +kernel
  obtain ⟨hissues, hoffsets⟩ := hframe parsed (by rw [hparsed]; rfl)
  exact ⟨parsed, hparsed, hissues, hoffsets, hsound⟩

end WordC
