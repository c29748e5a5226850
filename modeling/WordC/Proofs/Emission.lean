import Mathlib.Logic.Basic
import WordC.Proofs.Waiting

/-!
# What cannot be emitted

Programs made by hand may have any types, frames and trees. Emission has a result for all of them but
those in which a number leaves the range of a word or an address is asked of something that has none.

* `Ty.bytes`, `Ty.Overflows`: the size of a type without bounds, and the types of which some product on
  the way to it is no word.
* `Word.alignTo_ok_iff`: the frames that can be rounded up.
* `Expr.Blocked`: the nodes that cannot be emitted. `Expr.blocked_iff` ties them to what emission
  refuses.
* `Program.Faulty`: something of all this is in the program.
* `Program.emit_faults_iff`: emission faults exactly on such programs, and never because operands wait
  where a statement starts or ends.
-/
namespace WordC

/-! ## Sizes -/

namespace Ty

/-- Bytes of storage, however many. -/
def bytes : Ty → Int
  | int => 8
  | ptr _ => 8
  | array base len => base.bytes * len
  | func _ => 0

/-- The arrays whose sizes are multiplied out for the size of a type: itself, its elements, the elements
of these, and so on. What is pointed to is not among them. -/
def arrays : Ty → List Ty
  | array base len => array base len :: base.arrays
  | _ => []

/-- One of the products is no word. -/
def Overflows (ty : Ty) : Prop := ∃ t ∈ ty.arrays, ¬Word.Fits t.bytes

instance (ty : Ty) : Decidable ty.Overflows := inferInstanceAs (Decidable (∃ t ∈ ty.arrays, _))

theorem overflows_array (base : Ty) (len : Int) :
    (array base len).Overflows ↔ ¬Word.Fits (base.bytes * len) ∨ base.Overflows := by
  simp only [Overflows, arrays, List.mem_cons, exists_eq_or_imp, bytes]

/-- The size is exact, unless a product overflows. -/
theorem size_eq_ok_iff (ty : Ty) {n : Int} : ty.size = .ok n ↔ ¬ty.Overflows ∧ n = ty.bytes := by
  induction ty generalizing n with
  | int => simp [size, Overflows, arrays, bytes, eq_comm]
  | ptr base _ => simp [size, Overflows, arrays, bytes, eq_comm]
  | func ret _ => simp [size, Overflows, arrays, bytes, eq_comm]
  | array base len ih =>
    rw [size, Word.bind_eq_ok_iff, overflows_array, not_or, not_not]
    constructor
    · rintro ⟨m, hm, hmul⟩
      obtain ⟨hbase, rfl⟩ := ih.1 hm
      obtain ⟨hfits, rfl⟩ := Word.check_eq_ok_iff.1 hmul
      exact ⟨⟨hfits, hbase⟩, rfl⟩
    · rintro ⟨⟨hfits, hbase⟩, rfl⟩
      exact ⟨base.bytes, ih.2 ⟨hbase, rfl⟩, Word.check_eq_ok_iff.2 ⟨hfits, rfl⟩⟩

end Ty

namespace Word

/-- A computation of several steps has a result if each of them has. -/
theorem exists_bind_ok_iff {α β : Type} {x : Except Fault α} {f : α → Except Fault β} :
    (∃ b, x >>= f = .ok b) ↔ ∃ a, x = .ok a ∧ ∃ b, f a = .ok b := by
  simp only [bind_eq_ok_iff]
  constructor
  · rintro ⟨b, a, ha, hb⟩
    exact ⟨a, ha, b, hb⟩
  · rintro ⟨a, ha, b, hb⟩
    exact ⟨b, a, ha, hb⟩

/-- Two computations whose results are put together. -/
theorem exists_both_ok_iff {α β γ : Type} {x : Except Fault α} {y : Except Fault β} (g : α → β → γ) :
    (∃ c, (x >>= fun a => y >>= fun b => pure (g a b)) = .ok c) ↔
      (∃ a, x = .ok a) ∧ ∃ b, y = .ok b := by
  simp only [exists_bind_ok_iff]
  constructor
  · rintro ⟨a, ha, b, hb, -⟩
    exact ⟨⟨a, ha⟩, b, hb⟩
  · rintro ⟨⟨a, ha⟩, b, hb⟩
    exact ⟨a, ha, b, hb, g a b, rfl⟩

/-- Rounding a word up to a multiple of 16 only fails at its first step, the sum of the two. -/
theorem alignTo_ok_iff {n : Int} (h : Fits n) :
    (∃ m, alignTo n 16 = .ok m) ↔ n ≤ greatest - 16 := by
  obtain ⟨hleast, hgreatest⟩ := h
  constructor
  · rintro ⟨m, hm⟩
    obtain ⟨sum, hsum, -⟩ := bind_eq_ok_iff.1 hm
    obtain ⟨hfits, -⟩ := check_eq_ok_iff.1 hsum
    have hle := hfits.2
    omega
  · intro hle
    have hok {k : Int} (h₀ : least ≤ k) (h₁ : k ≤ greatest) : check k = .ok k :=
      check_eq_ok_iff.2 ⟨⟨h₀, h₁⟩, rfl⟩
    unfold least at hleast
    unfold greatest at hle
    have hquotient : -(576460752303423488 : Int) ≤ (n + 16 - 1).tdiv 16 ∧
        (n + 16 - 1).tdiv 16 ≤ 576460752303423487 := by
      have htdiv := Int.tdiv_eq_ediv (a := n + 16 - 1) (b := 16)
      have hsign : Int.sign 16 = 1 := rfl
      split at htdiv <;> omega
    refine ⟨(n + 16 - 1).tdiv 16 * 16, ?_⟩
    simp only [alignTo, add, sub, div, mul, show ¬(16 : Int) = 0 by decide, if_false]
    rw [hok (by unfold least; omega) (by unfold greatest; omega)]
    simp only [bind, Except.bind]
    rw [hok (by unfold least; omega) (by unfold greatest; omega)]
    dsimp only
    rw [hok (by unfold least; omega) (by unfold greatest; omega)]
    exact hok (by unfold least; omega) (by unfold greatest; omega)

end Word

/-! ## Nodes -/

namespace Expr

/-- The node cannot be emitted: it needs the address of something that is neither a variable nor a
dereference, or it passes more than six arguments. -/
inductive Blocked : Expr → Prop where
  | address {operand : Expr} {ty : Ty} {loc : Loc} : operand.isLvalue = false →
    Blocked (.unary .addr operand ty loc)
  | target {lhs rhs : Expr} {ty : Ty} {loc : Loc} : lhs.isLvalue = false →
    Blocked (.assign lhs rhs ty loc)
  | arguments {callee : String} {args : List Expr} {ty : Ty} {loc : Loc} : 6 < args.length →
    Blocked (.call callee args ty loc)

theorem blocked_iff {n : Expr} : n.Blocked ↔ n.emittable = false := by
  constructor
  · intro h
    cases h with
    | address hoperand => exact hoperand
    | target hlhs => exact hlhs
    | arguments hcount => exact decide_eq_false (Nat.not_le.2 hcount)
  · intro h
    cases n with
    | num value ty loc => cases h
    | var v ty loc => cases h
    | unary op operand ty loc =>
      cases op with
      | neg => cases h
      | addr => exact .address h
      | deref => cases h
    | binary op lhs rhs ty loc => cases h
    | assign lhs rhs ty loc => exact .target h
    | call callee args ty loc => exact .arguments (Nat.not_le.1 (of_decide_eq_false h))

instance (n : Expr) : Decidable n.Blocked := decidable_of_iff _ blocked_iff.symm

theorem emittable_iff {n : Expr} : n.emittable ↔ ¬n.Blocked := by
  rw [blocked_iff, Bool.not_eq_false]

end Expr

/-! ## Programs -/

theorem Global.emit_ok_iff (v : Global) : (∃ lines, v.emit = .ok lines) ↔ ¬v.ty.Overflows := by
  unfold Global.emit
  simp only [Word.exists_bind_ok_iff, Ty.size_eq_ok_iff]
  constructor
  · rintro ⟨size, ⟨hfits, -⟩, -⟩
    exact hfits
  · intro hfits
    exact ⟨v.ty.bytes, ⟨hfits, rfl⟩, _, rfl⟩

theorem Function.emit_ok_iff {f : Function} (h : Word.Fits f.stackSize) (used : Nat) :
    (∃ lines, f.emit used = .ok lines) ↔
      f.stackSize ≤ Word.greatest - 16 ∧ ∀ n ∈ f.body.nodes, ¬n.Blocked := by
  have hbody : f.body.fault? = none ↔ ∀ n ∈ f.body.nodes, ¬n.Blocked := by
    simp only [Stmt.fault?_eq_none_iff, Expr.emittable_iff]
  rw [← Word.alignTo_ok_iff h, ← hbody, Function.emit, Word.exists_bind_ok_iff]
  constructor
  · rintro ⟨frame, hframe, lines, hlines⟩
    refine ⟨⟨frame, hframe⟩, ?_⟩
    cases hfault : f.body.fault? with
    | none => rfl
    | some fault => rw [hfault] at hlines; cases hlines
  · rintro ⟨⟨frame, hframe⟩, hnone⟩
    rw [hnone]
    exact ⟨frame, hframe, _, rfl⟩

namespace Program

theorem emitGlobals_ok_iff (vs : List Global) :
    (∃ lines, emitGlobals vs = .ok lines) ↔ ∀ v ∈ vs, ¬v.ty.Overflows := by
  induction vs with
  | nil => exact ⟨fun _ => List.forall_mem_nil _, fun _ => ⟨[], rfl⟩⟩
  | cons v vs ih =>
    rw [List.forall_mem_cons, ← v.emit_ok_iff, ← ih, emitGlobals]
    exact Word.exists_both_ok_iff _

theorem emitFunctions_ok_iff {fs : List Function} (h : ∀ f ∈ fs, Word.Fits f.stackSize) (used : Nat) :
    (∃ lines, emitFunctions used fs = .ok lines) ↔
      ∀ f ∈ fs, f.stackSize ≤ Word.greatest - 16 ∧ ∀ n ∈ f.body.nodes, ¬n.Blocked := by
  induction fs generalizing used with
  | nil => exact ⟨fun _ => List.forall_mem_nil _, fun _ => ⟨[], rfl⟩⟩
  | cons f fs ih =>
    obtain ⟨hf, hfs⟩ := List.forall_mem_cons.1 h
    rw [List.forall_mem_cons, ← Function.emit_ok_iff hf used, ← ih hfs (used + f.body.labels),
      emitFunctions]
    exact Word.exists_both_ok_iff _

/-- A global variable has a size that overflows, a frame is too large to be rounded up, or a body has a
node that cannot be emitted anywhere in it. -/
def Faulty (p : Program) : Prop :=
  (∃ v ∈ p.globals, v.ty.Overflows) ∨
  (∃ f ∈ p.functions, Word.greatest - 16 < f.stackSize) ∨
  ∃ f ∈ p.functions, ∃ n ∈ f.body.nodes, n.Blocked

instance (p : Program) : Decidable p.Faulty := inferInstanceAs (Decidable (_ ∨ _ ∨ _))

/-- Programs without anything of this kind are emitted, and only those. -/
theorem emit_ok_iff {p : Program} (h : ∀ f ∈ p.functions, Word.Fits f.stackSize) :
    (∃ asm, p.emit = .ok asm) ↔ ¬p.Faulty := by
  have hdata : (∃ lines, p.emitData = .ok lines) ↔ ∃ lines, emitGlobals p.globals = .ok lines := by
    rw [emitData, Word.exists_bind_ok_iff]
    exact exists_congr fun lines => and_iff_left ⟨_, rfl⟩
  rw [emit, Word.exists_both_ok_iff, hdata, emitGlobals_ok_iff, emitFunctions_ok_iff h]
  simp only [Faulty, not_or, not_exists, not_and, Int.not_lt]
  constructor
  · rintro ⟨hglobals, hfunctions⟩
    exact ⟨hglobals, fun f hf => (hfunctions f hf).1, fun f hf => (hfunctions f hf).2⟩
  · rintro ⟨hglobals, hframes, hbodies⟩
    exact ⟨hglobals, fun f hf => ⟨hframes f hf, hbodies f hf⟩⟩

/-- The steps of functions, one behind the other, when `used` label numbers are taken. -/
def steps : Nat → List Function → List Flow
  | _, [] => []
  | used, f :: fs => f.body.flow f.name used ++ steps (used + f.body.labels) fs

/-- **Emission faults exactly on what cannot be emitted.** Let the frames of a program be words, and
everything else in it be as it may. Its emission faults if and only if the size of a global variable
overflows in one of its products, a frame is less than 16 below the greatest word, or a body has,
anywhere in it, the address of or an assignment to something that is neither a variable nor a
dereference, or a call with more than six arguments; otherwise there is assembly. Up to the first such
node no operand waits on the stack between the steps of the statements, in all functions one behind the
other, so a statement never starts or ends with the stack out of balance. -/
theorem emit_faults_iff {p : Program} (h : ∀ f ∈ p.functions, Word.Fits f.stackSize) :
    ((∃ fault, p.emit = .error fault) ↔ p.Faulty) ∧
    (¬p.Faulty → ∃ asm, p.emit = .ok asm) ∧
    ∀ reached, reached <+: steps 0 p.functions →
      (∀ e ∈ Flow.evaluated reached, ∀ n ∈ e.nodes, ¬n.Blocked) →
      Asm.waiting (reached.flatMap Flow.lines) = 0 := by
  refine ⟨?_, (emit_ok_iff h).2, fun reached _ hemittable => ?_⟩
  · rw [← not_iff_not, ← emit_ok_iff h]
    cases p.emit with
    | error fault => simp
    | ok asm => simp
  · refine Flow.waiting_flatMap fun e he => (Expr.fault?_eq_none_iff e).2 fun n hn => ?_
    exact Expr.emittable_iff.2 (hemittable e he n hn)

/-- A frame as large as can be, and in the step of a loop a call with six arguments, one of which is an
assignment to a place of an odd type. -/
def edge : Program :=
  let zero : Expr := .num 0 .int .nowhere
  let place : Expr := .unary .deref zero (.func .int) .nowhere
  let store : Expr := .assign place (.unary .addr place .int .nowhere) (.array .int (-1)) .nowhere
  let step : Expr := .call "f" [zero, zero, store, zero, zero, zero] .int .nowhere
  ⟨[.global ⟨"g", .array (.array .int 0) 9223372036854775807⟩,
    .function ⟨"f", [], .int, [], .loop none none (some step) (.ret none), 9223372036854775791⟩]⟩

/-- The same with the operand of the address replaced by one that is no place. -/
def beyond : Program :=
  let zero : Expr := .num 0 .int .nowhere
  let place : Expr := .unary .deref zero (.func .int) .nowhere
  let store : Expr := .assign place (.unary .addr zero .int .nowhere) (.array .int (-1)) .nowhere
  let step : Expr := .call "f" [zero, zero, store, zero, zero, zero] .int .nowhere
  ⟨[.function ⟨"f", [], .int, [], .loop none none (some step) (.ret none), -16⟩]⟩

/-- The first is emitted, the second faults. -/
theorem edge_beyond_emission :
    (∀ f ∈ edge.functions, Word.Fits f.stackSize) ∧ (∃ asm, edge.emit = .ok asm) ∧
    (∀ f ∈ beyond.functions, Word.Fits f.stackSize) ∧ ∃ fault, beyond.emit = .error fault := by
  have hedge : ∀ f ∈ edge.functions, Word.Fits f.stackSize := by decide
  have hbeyond : ∀ f ∈ beyond.functions, Word.Fits f.stackSize := by decide
  exact ⟨hedge, (emit_faults_iff hedge).2.1 (by decide), hbeyond,
    (emit_faults_iff hbeyond).1.2 (by decide)⟩

end Program

end WordC
