/-!
# Machine words and the faults of computing with them

The one integer of the language is a signed word of eight bytes. The compiler keeps words as
unbounded integers and checks the range after every single step, so a computation either gives the
exact result or stops with a `Fault`; nothing wraps.

* `Word.Fits`: the range of a word.
* `Word.add`, `sub`, `mul`, `div`, `neg`: one checked step each; division truncates toward zero.
* `Word.alignTo`: rounding up to a multiple, step by step.
-/
namespace WordC

/-- Why a computation has no result at all. A fault is never a diagnostic about the program being
compiled: it ends the run. -/
inductive Fault where
  /-- A step left the range of a word. -/
  | overflow
  | divisionByZero
  /-- The address of something that denotes no storage was asked for. -/
  | notStorage
  /-- A call passes more arguments than there are argument registers. -/
  | tooManyArguments
  /-- A reader ran deeper than the budget it was given. -/
  | exhausted
  deriving DecidableEq, Repr

namespace Fault

/-- The text of a fault that has one. -/
def message? : Fault → Option String
  | notStorage => some "internal error: not an lvalue"
  | _ => none

end Fault

namespace Word

/-- Least word. -/
def least : Int := -9223372036854775808

/-- Greatest word. -/
def greatest : Int := 9223372036854775807

/-- `n` is representable in a word. -/
def Fits (n : Int) : Prop := least ≤ n ∧ n ≤ greatest

instance (n : Int) : Decidable (Fits n) := inferInstanceAs (Decidable (_ ∧ _))

/-- `n` itself if it is a word. -/
def check (n : Int) : Except Fault Int :=
  if Fits n then .ok n else .error .overflow

def add (a b : Int) : Except Fault Int := check (a + b)

def sub (a b : Int) : Except Fault Int := check (a - b)

def mul (a b : Int) : Except Fault Int := check (a * b)

def neg (a : Int) : Except Fault Int := check (-a)

/-- Division truncates toward zero; the least word divided by `-1` is out of range. -/
def div (a b : Int) : Except Fault Int :=
  if b = 0 then .error .divisionByZero else check (a.tdiv b)

/-- `n` rounded up to a multiple of `align`: `(n + align - 1) / align * align`, every step checked. -/
def alignTo (n align : Int) : Except Fault Int := do
  let sum ← add n align
  let most ← sub sum 1
  let count ← div most align
  mul count align

theorem bind_eq_ok_iff {α β : Type} {x : Except Fault α} {f : α → Except Fault β} {b : β} :
    x >>= f = .ok b ↔ ∃ a, x = .ok a ∧ f a = .ok b := by
  cases x with
  | error fault => simp [bind, Except.bind]
  | ok a => simp [bind, Except.bind]

theorem check_eq_ok_iff {n m : Int} : check n = .ok m ↔ Fits n ∧ m = n := by
  unfold check
  split
  · rename_i h
    simp [h, eq_comm]
  · rename_i h
    simp [h]

end Word

end WordC
