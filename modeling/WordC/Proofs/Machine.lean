import Mathlib.Logic.Function.Basic
import WordC.Asm
import WordC.Word

/-!
# A machine for straight-line code

The machine has registers of eight bytes, a memory of eight-byte words and the flags of the last
comparison. Arithmetic wraps around. A division that has no quotient, and a test of flags that no
comparison left, stop the machine.

What a piece of code does depends on its surroundings, a `World`:

* `own`: the words of memory that belong to the program and not to the machine,
* `top`, `reserve`: the stack below `top`, on which operands wait, and how many bytes it has; no word
  of it is the program's own,
* `symbol`: the addresses of global variables,
* `callee`: the functions that can be called, as arbitrary functions of the six argument registers
  and the program's words,
* `debris`: what a call leaves in every register and word of memory that it need not keep.

`Condition.holds_compare` says what a comparison and the test behind it mean, `Machine.divide_extend`
what a division means whose dividend was sign-extended.
-/
namespace WordC

open Asm

/-- A machine word. -/
abbrev Quad := BitVec 64

/-! ## Flags -/

/-- The flags that a comparison sets. -/
structure Flags where
  zero : Bool
  sign : Bool
  overflow : Bool
  deriving DecidableEq, Repr

/-- The flags of the difference `x - y`. -/
def Flags.compare (x y : Quad) : Flags := ⟨x - y == 0#64, (x - y).msb, x.ssubOverflow y⟩

namespace Asm.Condition

/-- The condition as the machine reads it off the flags. -/
def holds : Condition → Flags → Bool
  | equal, f => f.zero
  | notEqual, f => !f.zero
  | less, f => f.sign != f.overflow
  | lessEqual, f => f.zero || f.sign != f.overflow

/-- The condition on the two compared words as signed numbers. -/
def test : Condition → Quad → Quad → Bool
  | equal, x, y => x == y
  | notEqual, x, y => x != y
  | less, x, y => x.slt y
  | lessEqual, x, y => x.sle y

theorem zero_compare (x y : Quad) : (Flags.compare x y).zero = (x == y) := by
  rw [Bool.eq_iff_iff]
  simp [Flags.compare, BitVec.sub_eq_iff_eq_add]

/-- Sign and overflow differ exactly if the first word is the lesser one. -/
theorem sign_ne_overflow (x y : Quad) :
    ((Flags.compare x y).sign != (Flags.compare x y).overflow) = x.slt y := by
  simp only [Flags.compare, BitVec.ssubOverflow_eq, BitVec.slt_eq_decide, BitVec.msb_eq_toInt,
    BitVec.toInt_sub]
  have := x.le_toInt; have := x.toInt_lt
  have := y.le_toInt; have := y.toInt_lt
  simp only [Nat.add_one_sub_one] at *
  -- Words of one sign have a difference that does not wrap.
  have hb (h : x.toInt < 0 ↔ y.toInt < 0) :
      (x.toInt - y.toInt).bmod (2 ^ 64) = x.toInt - y.toInt := by
    rw [Int.bmod_def]
    split <;> omega
  by_cases hx : x.toInt < 0 <;> by_cases hy : y.toInt < 0
  · have hlt : x.toInt - y.toInt < 0 ↔ x.toInt < y.toInt := by omega
    simp only [hb (iff_of_true hx hy), hlt, hx, hy, decide_true, Bool.not_true, Bool.false_and,
      Bool.and_false, Bool.or_false, Bool.bne_false]
  · have hlt : x.toInt < y.toInt := by omega
    simp only [hlt, hx, hy, decide_true, decide_false, Bool.not_true, Bool.not_false,
      Bool.false_and, Bool.true_and, Bool.false_or, Bool.bne_not_self]
  · have hlt : ¬ x.toInt < y.toInt := by omega
    simp only [hlt, hx, hy, decide_true, decide_false, Bool.not_true, Bool.not_false,
      Bool.false_and, Bool.true_and, Bool.or_false, bne_self_eq_false]
  · have hlt : x.toInt - y.toInt < 0 ↔ x.toInt < y.toInt := by omega
    simp only [hb (iff_of_false hx hy), hlt, hx, hy, decide_false, Bool.not_false, Bool.true_and,
      Bool.false_and, Bool.or_false, Bool.bne_false]

theorem holds_compare (c : Condition) (x y : Quad) : c.holds (Flags.compare x y) = c.test x y := by
  cases c with
  | equal => exact zero_compare x y
  | notEqual => simp only [holds, test, zero_compare, bne]
  | less => exact sign_ne_overflow x y
  | lessEqual =>
    simp only [holds, test, zero_compare, sign_ne_overflow]
    rw [Bool.eq_iff_iff]
    simp only [Bool.or_eq_true, beq_iff_eq, BitVec.slt_iff_toInt_lt, BitVec.sle_iff_toInt_le,
      ← BitVec.toInt_inj]
    omega

end Asm.Condition

/-! ## Machine states -/

structure Machine where
  regs : Reg → Quad
  mem : Quad → Quad
  /-- Known only behind a comparison. -/
  flags : Option Flags

namespace Machine

def set (σ : Machine) (r : Reg) (v : Quad) : Machine :=
  { σ with regs := Function.update σ.regs r v }

/-- A result of arithmetic, which leaves flags of its own. -/
def compute (σ : Machine) (r : Reg) (v : Quad) : Machine := { σ.set r v with flags := none }

def write (σ : Machine) (a v : Quad) : Machine := { σ with mem := Function.update σ.mem a v }

/-- `v` on top of the stack, one word further down. -/
def push (σ : Machine) (v : Quad) : Machine :=
  (σ.set .rsp (σ.regs .rsp - 8#64)).write (σ.regs .rsp - 8#64) v

/-- The word on top of the stack into `r`. -/
def pop (σ : Machine) (r : Reg) : Machine :=
  (σ.set .rsp (σ.regs .rsp + 8#64)).set r (σ.mem (σ.regs .rsp))

/-- The sign of `rax` over all of `rdx`. -/
def extend (σ : Machine) : Machine :=
  σ.set .rdx (if (σ.regs .rax).msb then -1#64 else 0#64)

/-- The signed quotient and remainder of `rdx:rax` by `d`, if the quotient is a word. -/
def divide (σ : Machine) (d : Quad) : Option Machine :=
  let n := (σ.regs .rdx ++ σ.regs .rax).toInt
  if d ≠ 0#64 ∧ Word.Fits (n.tdiv d.toInt) then
    some ((σ.compute .rax (BitVec.ofInt 64 (n.tdiv d.toInt))).set .rdx
      (BitVec.ofInt 64 (n.tmod d.toInt)))
  else none

/-- The lowest byte of `rax` becomes 0 or 1. -/
def setByte (σ : Machine) (b : Bool) : Machine :=
  σ.set .rax ((σ.regs .rax).extractLsb' 8 56 ++ (BitVec.ofBool b).setWidth 8)

/-- The lowest byte of `rax` over all of it. -/
def widen (σ : Machine) : Machine := σ.set .rax (((σ.regs .rax).setWidth 8).setWidth 64)

variable (σ : Machine) (r : Reg) (a v : Quad)

@[simp] theorem set_regs : (σ.set r v).regs = Function.update σ.regs r v := rfl

@[simp] theorem set_mem : (σ.set r v).mem = σ.mem := rfl

@[simp] theorem set_flags : (σ.set r v).flags = σ.flags := rfl

@[simp] theorem compute_regs : (σ.compute r v).regs = Function.update σ.regs r v := rfl

@[simp] theorem compute_mem : (σ.compute r v).mem = σ.mem := rfl

@[simp] theorem write_regs : (σ.write a v).regs = σ.regs := rfl

@[simp] theorem write_mem : (σ.write a v).mem = Function.update σ.mem a v := rfl

@[simp] theorem pop_mem : (σ.pop r).mem = σ.mem := rfl

theorem widen_setByte (b : Bool) :
    (σ.setByte b).widen.regs .rax = if b then 1#64 else 0#64 := by
  simp only [widen, setByte, set_regs, Function.update_self]
  rw [BitVec.setWidth_append]
  cases b <;> simp

end Machine

/-! ## Worlds -/

/-- The words at the addresses that are owned. -/
abbrev Storage (own : Quad → Bool) := { a : Quad // own a } → Quad

structure World where
  own : Quad → Bool
  /-- The stack pointer when no operand waits. -/
  top : Quad
  /-- How many bytes below `top` are there for operands. -/
  reserve : Nat
  reserve_lt : reserve < 0x10000000000000000
  own_apart : ∀ a, own a → (top - a).toNat = 0 ∨ reserve < (top - a).toNat
  symbol : String → Quad
  callee : String → List Quad → Storage own → Quad × Storage own
  debris : String → Machine → Machine

namespace World

variable (W : World)

/-- How far an address lies below the top of the stack. -/
def below (a : Quad) : Nat := (W.top - a).toNat

/-- The word at `a` is an operand that waits on the stack. -/
def Waits (σ : Machine) (a : Quad) : Prop := 0 < W.below a ∧ W.below a ≤ W.below (σ.regs .rsp)

instance (σ : Machine) (a : Quad) : Decidable (W.Waits σ a) := inferInstanceAs (Decidable (_ ∧ _))

/-- The program's words in a memory. -/
def view (mem : Quad → Quad) : Storage W.own := fun a => mem a.1

/-- A call: the result in `rax`, the program's words as the callee leaves them, the stack pointer,
the frame base and the waiting operands kept, and anything anywhere else. -/
def call (f : String) (σ : Machine) : Machine :=
  let r := W.callee f (argRegs.map σ.regs) (W.view σ.mem)
  let left := W.debris f σ
  { regs := fun
      | .rax => r.1
      | .rsp => σ.regs .rsp
      | .rbp => σ.regs .rbp
      | reg => left.regs reg
    mem := fun a =>
      if h : W.own a then r.2 ⟨a, h⟩ else if W.Waits σ a then σ.mem a else left.mem a
    flags := left.flags }

/-- One instruction. Jumps and returns are not straight-line code. -/
def exec (σ : Machine) : Instr → Option Machine
  | .push r => some (σ.push (σ.regs r))
  | .pop r => some (σ.pop r)
  | .const n dst => some (σ.set dst (BitVec.ofInt 64 n))
  | .move src dst => some (σ.set dst (σ.regs src))
  | .load src dst => some (σ.set dst (σ.mem (σ.regs src)))
  | .store src dst => some (σ.write (σ.regs dst) (σ.regs src))
  | .spill src offset => some (σ.write (σ.regs .rbp + BitVec.ofInt 64 offset) (σ.regs src))
  | .frameAddr offset dst => some (σ.set dst (σ.regs .rbp + BitVec.ofInt 64 offset))
  | .dataAddr name dst => some (σ.set dst (W.symbol name))
  | .neg r => some (σ.compute r (-σ.regs r))
  | .add src dst => some (σ.compute dst (σ.regs dst + σ.regs src))
  | .sub src dst => some (σ.compute dst (σ.regs dst - σ.regs src))
  | .mul src dst => some (σ.compute dst (σ.regs dst * σ.regs src))
  | .signExtend => some σ.extend
  | .divide r => σ.divide (σ.regs r)
  | .compare src dst => some { σ with flags := some (.compare (σ.regs dst) (σ.regs src)) }
  | .compareZero r => some { σ with flags := some (.compare (σ.regs r) 0#64) }
  | .set cond => σ.flags.map fun f => σ.setByte (cond.holds f)
  | .widen => some σ.widen
  | .addConst n dst => some (σ.compute dst (σ.regs dst + BitVec.ofInt 64 n))
  | .subConst n dst => some (σ.compute dst (σ.regs dst - BitVec.ofInt 64 n))
  | .call f => some (W.call f σ)
  | .jumpIfEqual _ | .jump _ | .ret => none

/-- Straight-line code from the first instruction to the last. -/
def run (code : List Instr) (σ : Machine) : Option Machine := code.foldlM W.exec σ

@[simp] theorem run_nil (σ : Machine) : W.run [] σ = some σ := rfl

@[simp] theorem run_cons (i : Instr) (code : List Instr) (σ : Machine) :
    W.run (i :: code) σ = (W.exec σ i).bind (W.run code) := rfl

theorem run_append (xs ys : List Instr) (σ : Machine) :
    W.run (xs ++ ys) σ = (W.run xs σ).bind (W.run ys) := List.foldlM_append

end World

/-! ## Division -/

namespace Machine

theorem toInt_extend (x : Quad) : ((if x.msb then -1#64 else 0#64) ++ x).toInt = x.toInt := by
  rw [BitVec.toInt_append, BitVec.toInt_eq_msb_cond]
  cases x.msb <;> simp <;> omega

/-- A quotient of two words is a word, unless the least word is divided by `-1`. -/
theorem fits_tdiv_iff (x y : Quad) :
    Word.Fits (x.toInt.tdiv y.toInt) ↔ ¬ (x = BitVec.intMin 64 ∧ y = -1#64) := by
  constructor
  · rintro hfit ⟨rfl, rfl⟩
    exact absurd hfit (by decide)
  · intro h
    have hd : (x.sdiv y).toInt = x.toInt.tdiv y.toInt :=
      BitVec.toInt_sdiv_of_ne_or_ne x y (by simpa [imp_iff_not_or] using h)
    have := (x.sdiv y).le_toInt; have := (x.sdiv y).toInt_lt
    unfold Word.Fits Word.least Word.greatest
    simp only [Nat.add_one_sub_one] at *
    omega

/-- Dividing a sign-extended word by another one gives their truncated quotient. -/
theorem divide_extend {σ : Machine} {d : Quad} (h0 : d ≠ 0#64)
    (hov : ¬ (σ.regs .rax = BitVec.intMin 64 ∧ d = -1#64)) :
    ∃ r, σ.extend.divide d =
      some ((σ.extend.compute .rax ((σ.regs .rax).sdiv d)).set .rdx r) := by
  have hn : (σ.extend.regs .rdx ++ σ.extend.regs .rax).toInt = (σ.regs .rax).toInt := by
    simp only [extend, set, Function.update_self, Function.update_of_ne (show Reg.rax ≠ .rdx by decide)]
    exact toInt_extend _
  refine ⟨BitVec.ofInt 64 ((σ.regs .rax).toInt.tmod d.toInt), ?_⟩
  unfold divide
  simp only [hn]
  rw [if_pos ⟨h0, (fits_tdiv_iff _ _).2 hov⟩]
  rw [← BitVec.toInt_sdiv_of_ne_or_ne _ _ (by simpa [imp_iff_not_or] using hov)]
  rw [BitVec.ofInt_toInt]

end Machine

end WordC
