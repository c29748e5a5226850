import WordC.Proofs.Blocks
import WordC.Proofs.Waiting

/-!
# The operand stack and the alignment of calls

Scan the lines of a function from behind the setup of its frame to the label at which it returns, and
count the bytes on the operand stack: eight more behind each `push %rax` and each `sub $8, %rsp`,
eight less behind each `pop` and each `add $8, %rsp`. A call wants a stack pointer that is a multiple
of 16, and where lines meet that are reached in different ways the count has to be the same.

* `Asm.stacked`, `Asm.lowered`: the count over given lines, and by how much they lower the stack
  pointer.
* `Asm.Line.Meets`: what a line asks of the count in front of it.
* `Asm.Carries`: a scan that starts with one count and ends with another, on which each line finds
  what it asks for and moves the stack pointer by what is counted.
* `Expr.level_code`: the code of an expression does so, with as many words waiting as it was told.
* `Program.emit_disciplined`: every function of an assembly does so from frame setup to return, and
  the stack pointer is aligned at each of its calls.
-/
namespace WordC

open Asm

/-! ## Counting -/

namespace Asm

/-- By how many bytes the operand stack is larger behind an instruction. -/
def Instr.stacks : Instr → Int
  | push .rax => 8
  | pop _ => -8
  | subConst n .rsp => if n = 8 then 8 else 0
  | addConst n .rsp => if n = 8 then -8 else 0
  | _ => 0

/-- By how many bytes the stack pointer is lower behind an instruction. The restoring of it at the end
of a function is not counted. -/
def Instr.lowers : Instr → Int
  | push _ => 8
  | pop _ => -8
  | subConst n .rsp => n
  | addConst n .rsp => -n
  | _ => 0

def Line.stacks : Line → Int
  | instr i => i.stacks
  | _ => 0

def Line.lowers : Line → Int
  | instr i => i.lowers
  | _ => 0

/-- The sum of a measure over lines. -/
def total (measure : Line → Int) : List Line → Int
  | [] => 0
  | l :: ls => measure l + total measure ls

theorem total_append (measure : Line → Int) (ls ls' : List Line) :
    total measure (ls ++ ls') = total measure ls + total measure ls' := by
  induction ls with
  | nil => simp [total]
  | cons l ls ih => simp only [List.cons_append, total, ih, Int.add_assoc]

/-- The bytes on the operand stack behind the given lines. -/
def stacked (ls : List Line) : Int := total Line.stacks ls

/-- By how many bytes the given lines lower the stack pointer. -/
def lowered (ls : List Line) : Int := total Line.lowers ls

/-! ## Scanning -/

/-- What a line asks of the bytes on the operand stack in front of it: labels and jumps ask for none,
calls for a multiple of 16. -/
def Line.Meets (d : Int) : Line → Prop
  | label _ => d = 0
  | instr (.jump _) => d = 0
  | instr (.jumpIfEqual _) => d = 0
  | instr (.call _) => 16 ∣ d
  | _ => True

/-- A scan from `a` bytes to `b` on which nothing is amiss. -/
def Carries : Int → List Line → Int → Prop
  | a, [], b => 0 ≤ a ∧ a = b
  | a, l :: ls, b => 0 ≤ a ∧ l.Meets a ∧ l.lowers = l.stacks ∧ Carries (a + l.stacks) ls b

namespace Carries

variable {a b c : Int} {ls ls' : List Line}

theorem nil (ha : 0 ≤ a) : Carries a [] a := ⟨ha, rfl⟩

theorem append (h : Carries a ls b) (h' : Carries b ls' c) : Carries a (ls ++ ls') c := by
  induction ls generalizing a with
  | nil =>
    obtain ⟨-, rfl⟩ := h
    exact h'
  | cons l ls ih =>
    obtain ⟨ha, hmeets, hlowers, h⟩ := h
    exact ⟨ha, hmeets, hlowers, ih h⟩

/-- A scan can be cut anywhere. -/
theorem split (h : Carries a (ls ++ ls') c) :
    Carries a ls (a + stacked ls) ∧ Carries (a + stacked ls) ls' c := by
  induction ls generalizing a with
  | nil =>
    have ha : 0 ≤ a := by
      cases ls' with
      | nil => exact h.1
      | cons l ls' => exact h.1
    simpa [stacked, total] using And.intro (nil ha) h
  | cons l ls ih =>
    obtain ⟨ha, hmeets, hlowers, h⟩ := h
    obtain ⟨hfirst, hrest⟩ := ih h
    have hsum : a + stacked (l :: ls) = a + l.stacks + stacked ls := by
      simp only [stacked, total]
      omega
    rw [hsum]
    exact ⟨⟨ha, hmeets, hlowers, hfirst⟩, hrest⟩

theorem nonneg (h : Carries a ls b) : 0 ≤ b := by
  induction ls generalizing a with
  | nil =>
    obtain ⟨ha, rfl⟩ := h
    exact ha
  | cons l ls ih => exact ih h.2.2.2

/-- The stack pointer moves by what is counted. -/
theorem lowered_eq (h : Carries a ls b) : lowered ls = stacked ls := by
  induction ls generalizing a with
  | nil => rfl
  | cons l ls ih =>
    obtain ⟨-, -, hlowers, h⟩ := h
    have := ih h
    simp only [lowered, stacked, total] at *
    omega

theorem single {l : Line} (ha : 0 ≤ a) (hmeets : l.Meets a) (hlowers : l.lowers = l.stacks)
    (hb : a + l.stacks = b) (hb' : 0 ≤ b) : Carries a [l] b := by
  subst hb
  exact ⟨ha, hmeets, hlowers, nil hb'⟩

theorem push (ha : 0 ≤ a) : Carries a [.instr (.push .rax)] (a + 8) :=
  single ha trivial rfl rfl (by omega)

theorem pop (r : Reg) (ha : 0 ≤ a) : Carries (a + 8) [.instr (.pop r)] a :=
  single (by omega) trivial rfl (Int.add_neg_cancel_right a 8) ha

/-- One more word, in which nothing is kept. -/
theorem reserve (ha : 0 ≤ a) : Carries a [.instr (.subConst 8 .rsp)] (a + 8) :=
  single ha trivial rfl rfl (by omega)

theorem release (ha : 0 ≤ a) : Carries (a + 8) [.instr (.addConst 8 .rsp)] a :=
  single (by omega) trivial rfl (Int.add_neg_cancel_right a 8) ha

theorem call (callee : String) (ha : 0 ≤ a) (hdvd : 16 ∣ a) :
    Carries a [.instr (.call callee)] a :=
  single ha hdvd rfl (Int.add_zero a) ha

end Carries

/-- The instruction leaves the stack pointer alone, and control goes on behind it. -/
def Instr.isPlain : Instr → Bool
  | push _ | pop _ | addConst _ _ | subConst _ _ | call _ | jump _ | jumpIfEqual _ | ret => false
  | _ => true

/-- Plain instructions change nothing. -/
theorem Carries.plain {a : Int} {is : List Instr} (h : ∀ i ∈ is, i.isPlain) (ha : 0 ≤ a) :
    Carries a (is.map .instr) a := by
  induction is with
  | nil => exact nil ha
  | cons i is ih =>
    obtain ⟨hi, his⟩ := List.forall_mem_cons.1 h
    have hstacks : i.stacks = 0 := by cases i <;> first | rfl | cases hi
    have hlowers : i.lowers = 0 := by cases i <;> first | rfl | cases hi
    have hmeets : (Line.instr i).Meets a := by cases i <;> trivial
    refine ⟨ha, hmeets, ?_, ?_⟩
    · simp only [Line.lowers, Line.stacks, hlowers, hstacks]
    · simp only [Line.stacks, hstacks, Int.add_zero]
      exact ih his

end Asm

/-! ## Expressions -/

namespace Expr

/-- The given code starts and ends with `depth` words on the operand stack. -/
def Level (depth : Nat) (code : List Instr) : Prop :=
  Carries (8 * depth) (code.map .instr) (8 * depth)

theorem Level.append {depth : Nat} {code code' : List Instr} (h : Level depth code)
    (h' : Level depth code') : Level depth (code ++ code') := by
  unfold Level
  rw [List.map_append]
  exact Carries.append h h'

theorem Level.plain {depth : Nat} {is : List Instr} (h : ∀ i ∈ is, i.isPlain) : Level depth is :=
  Carries.plain h (by omega)

theorem word_succ (depth : Nat) : 8 * ((depth + 1 : Nat) : Int) = 8 * depth + 8 := by
  omega

/-- A word is pushed, and popped again behind code that starts with it on the stack. -/
theorem Level.bracket {depth : Nat} {code : List Instr} (h : Level (depth + 1) code) (r : Reg) :
    Level depth ([.push .rax] ++ code ++ [.pop r]) := by
  unfold Level at *
  rw [word_succ] at h
  simp only [List.map_append]
  exact ((Carries.push (by omega)).append h).append (Carries.pop r (by omega))

theorem level_load (depth : Nat) (ty : Ty) : Level depth (loadInstrs ty) := by
  refine Level.plain ?_
  unfold loadInstrs
  split <;> simp [Instr.isPlain]

theorem level_var (depth : Nat) (v : Var) : Level depth (varInstrs v) := by
  refine Level.plain ?_
  cases v <;> simp [varInstrs, Instr.isPlain]

theorem level_binary (depth : Nat) (op : BinaryOp) : Level depth op.instrs := by
  refine Level.plain ?_
  cases op <;> simp [BinaryOp.instrs, Instr.isPlain]

/-- An odd number of words is made even before the call. -/
theorem level_call (depth : Nat) (callee : String) : Level depth (callInstrs callee depth) := by
  have hclear {d : Int} (hd : 0 ≤ d) (hdvd : 16 ∣ d) :
      Carries d [.instr (.const 0 .rax), .instr (.call callee)] d := by
    have hzero : Carries d ([Instr.const 0 .rax].map .instr) d :=
      Carries.plain (by simp [Instr.isPlain]) hd
    exact hzero.append (Carries.call callee hd hdvd)
  unfold Level callInstrs
  split
  · exact (Carries.reserve (by omega)).append
      ((hclear (by omega) (by omega)).append (Carries.release (by omega)))
  · exact hclear (by omega) (by omega)

/-- Arguments are left on the stack, one word each. -/
theorem carries_pushArgs {args : List Expr}
    (h : ∀ arg ∈ args, ∀ depth, Level depth (arg.code depth)) :
    ∀ depth : Nat,
      Carries (8 * depth) ((pushArgs depth args).map .instr) (8 * (depth + args.length)) := by
  induction args with
  | nil =>
    intro depth
    exact Carries.nil (by omega)
  | cons arg args ih =>
    intro depth
    obtain ⟨harg, hargs⟩ := List.forall_mem_cons.1 h
    have hmore := ih hargs (depth + 1)
    rw [word_succ, show 8 * (((depth + 1 : Nat) : Int) + args.length) =
      8 * (depth + (arg :: args).length) by simp only [List.length_cons]; omega] at hmore
    simp only [pushArgs, List.map_append, List.append_assoc]
    exact Carries.append (harg depth) ((Carries.push (by omega)).append hmore)

/-- As many words as there are registers are popped into them. -/
theorem carries_pops (depth : Nat) (rs : List Reg) :
    Carries (8 * (depth + rs.length)) ((rs.map Instr.pop).map .instr) (8 * depth) := by
  induction rs with
  | nil => exact Carries.nil (by omega)
  | cons r rs ih =>
    rw [show (8 * (depth + (r :: rs).length) : Int) = 8 * (depth + rs.length) + 8 by
      simp only [List.length_cons]; omega]
    exact Carries.append (Carries.pop r (by omega)) ih

theorem carries_popArgs (depth : Nat) {count : Nat} (h : count ≤ maxArgs) :
    Carries (8 * (depth + count)) ((popArgs count).map .instr) (8 * depth) := by
  have hlength : (argRegs.take count).reverse.length = count := by
    simp only [List.length_reverse, List.length_take]
    exact Nat.min_eq_left h
  have hpops := carries_pops depth (argRegs.take count).reverse
  rw [hlength] at hpops
  exact hpops

/-- The code of an expression keeps to the number of words that it is told; so does the code of its
address if it is a place. -/
theorem level_code (e : Expr) : e.fault? = none →
    (∀ depth, Level depth (e.code depth)) ∧
      (e.isLvalue → ∀ depth, Level depth (e.addressCode depth)) := by
  induction e with
  | num value ty loc =>
    intro _
    exact ⟨fun depth => Level.plain (by simp [code, Instr.isPlain]), fun h => by cases h⟩
  | var v ty loc =>
    intro _
    exact ⟨fun depth => (level_var depth v).append (level_load depth ty),
      fun _ depth => level_var depth v⟩
  | unary op operand ty loc ih =>
    intro hf
    cases op with
    | neg =>
      refine ⟨fun depth => ((ih hf).1 depth).append (Level.plain ?_), fun h => by cases h⟩
      simp [Instr.isPlain]
    | addr =>
      obtain ⟨hplace, hf⟩ := (addressFault?_eq_none_iff operand).1 hf
      exact ⟨(ih hf).2 hplace, fun h => by cases h⟩
    | deref => exact ⟨fun depth => ((ih hf).1 depth).append (level_load depth ty), fun _ => (ih hf).1⟩
  | binary op lhs rhs ty loc ihl ihr =>
    intro hf
    obtain ⟨hr, hl⟩ := Option.or_eq_none_iff.1 hf
    refine ⟨fun depth => ?_, fun h => by cases h⟩
    have hbracket := ((ihl hl).1 (depth + 1)).bracket .rdi
    simpa only [code, List.append_assoc] using
      (((ihr hr).1 depth).append hbracket).append (level_binary depth op)
  | assign lhs rhs ty loc ihl ihr =>
    intro hf
    obtain ⟨hl, hr⟩ := Option.or_eq_none_iff.1 hf
    obtain ⟨hplace, hl⟩ := (addressFault?_eq_none_iff lhs).1 hl
    refine ⟨fun depth => ?_, fun h => by cases h⟩
    have hbracket := ((ihr hr).1 (depth + 1)).bracket .rdi
    have hstore : Level depth [.store .rax .rdi] := Level.plain (by simp [Instr.isPlain])
    simpa [code] using (((ihl hl).2 hplace depth).append hbracket).append hstore
  | call callee args ty loc ih =>
    intro hf
    obtain ⟨hargs, hcount⟩ := Option.or_eq_none_iff.1 hf
    have hcodes : ∀ arg ∈ args, ∀ depth, Level depth (arg.code depth) := fun arg harg =>
      (ih arg harg (argsFault?_eq_none_iff.1 hargs arg harg)).1
    refine ⟨fun depth => ?_, fun h => by cases h⟩
    have hpops := carries_popArgs depth (show args.length ≤ maxArgs by simpa using hcount)
    unfold Level
    simp only [code, List.map_append]
    exact ((carries_pushArgs hcodes depth).append hpops).append (level_call depth callee)

end Expr

/-! ## Functions -/

namespace Flow

/-- A step starts and ends with nothing on the operand stack. -/
theorem carries_lines {step : Flow} (h : ∀ e ∈ step.eval?, e.fault? = none) :
    Carries 0 step.lines 0 := by
  cases step with
  | eval e => exact (e.level_code (h e rfl)).1 0
  | branchZero target | jump target | label l =>
    simp [lines, Carries, Line.Meets, Line.lowers, Line.stacks, Instr.lowers, Instr.stacks]

theorem carries_flatMap {steps : List Flow} (h : ∀ step ∈ steps, ∀ e ∈ step.eval?, e.fault? = none) :
    Carries 0 (steps.flatMap lines) 0 := by
  induction steps with
  | nil => exact Carries.nil (Int.le_refl 0)
  | cons step steps ih =>
    obtain ⟨hstep, hsteps⟩ := List.forall_mem_cons.1 h
    rw [List.flatMap_cons]
    exact (carries_lines hstep).append (ih hsteps)

end Flow

namespace Function

/-- The lines of a function up to and with the setup of its frame. -/
def entry (frame : Int) (f : Function) : List Line :=
  [.directive (.global f.name), .label (.symbol f.name)] ++ (prologue frame).map .instr

/-- The lines from behind the setup of the frame to the label at which the function returns. -/
def scanned (used : Nat) (f : Function) : List Line :=
  (spills f.params).map .instr ++ f.bodyLines used ++ [.label (.leave f.name)]

theorem lines_eq (used : Nat) (frame : Int) (f : Function) :
    f.lines used frame = f.entry frame ++ f.scanned used ++ epilogue.map .instr := by
  simp [lines, entry, scanned]

theorem carries_scanned {f : Function} (used : Nat) (h : f.body.fault? = none) :
    Carries 0 (f.scanned used) 0 := by
  have hspills : Carries 0 ((spills f.params).map .instr) 0 := by
    refine Carries.plain (fun i hi => ?_) (Int.le_refl 0)
    obtain ⟨⟨v, r⟩, -, rfl⟩ := List.mem_map.1 hi
    rfl
  have hbody : Carries 0 (f.bodyLines used) 0 := by
    refine Flow.carries_flatMap fun step hstep e he => f.body.fault?_eq_none_iff_roots.1 h e ?_
    rw [← f.body.evaluated_flow f.name used]
    exact List.mem_filterMap.2 ⟨step, hstep, he⟩
  exact (hspills.append hbody).append ⟨Int.le_refl 0, rfl, rfl, Carries.nil (Int.le_refl 0)⟩

/-- What the setup of the frame takes: the word of the frame base, and a multiple of 16 bytes. -/
theorem lowered_entry {frame : Int} (f : Function) (h : 16 ∣ frame) :
    16 ∣ 8 + lowered (f.entry frame) := by
  unfold entry prologue
  split
  · simp only [lowered, total, List.cons_append, List.nil_append, List.map_cons, List.map_nil,
      Line.lowers, Instr.lowers]
    omega
  · simp [lowered, total, Line.lowers, Instr.lowers]

/-- The stack discipline of a function whose frame has `frame` bytes: the bytes on the operand stack
are never negative, each line finds what it asks for, and the stack pointer, which is eight bytes off
a multiple of 16 where the function is entered, is on one at each call. -/
structure Disciplined (used : Nat) (frame : Int) (f : Function) : Prop where
  frame_dvd : 16 ∣ frame
  nonneg : ∀ pre, pre <+: f.scanned used → 0 ≤ stacked pre
  meets : ∀ pre l post, f.scanned used = pre ++ l :: post → l.Meets (stacked pre)
  aligned : ∀ pre g post, f.scanned used = pre ++ .instr (.call g) :: post →
    16 ∣ 8 + lowered (f.entry frame ++ pre)

theorem disciplined {f : Function} {frame : Int} (used : Nat) (hframe : 16 ∣ frame)
    (h : f.body.fault? = none) : f.Disciplined used frame := by
  have hscan := f.carries_scanned used h
  have hmeets (pre : List Line) (l : Line) (post : List Line)
      (heq : f.scanned used = pre ++ l :: post) : l.Meets (stacked pre) := by
    rw [heq] at hscan
    have hl := hscan.split.2.2.1
    rwa [Int.zero_add] at hl
  refine ⟨hframe, ?_, hmeets, ?_⟩
  · rintro pre ⟨post, heq⟩
    rw [← heq] at hscan
    have hpre := hscan.split.1.nonneg
    rwa [Int.zero_add] at hpre
  · intro pre g post heq
    have hcall : 16 ∣ stacked pre := hmeets pre _ post heq
    have hentry := f.lowered_entry hframe
    rw [heq] at hscan
    have hpre := hscan.split.1.lowered_eq
    unfold lowered at *
    rw [total_append]
    omega

end Function

theorem Word.dvd_of_alignTo {n align m : Int} (h : Word.alignTo n align = .ok m) : align ∣ m := by
  obtain ⟨sum, -, h⟩ := Word.bind_eq_ok_iff.1 h
  obtain ⟨most, -, h⟩ := Word.bind_eq_ok_iff.1 h
  obtain ⟨count, -, h⟩ := Word.bind_eq_ok_iff.1 h
  obtain ⟨-, rfl⟩ := Word.check_eq_ok_iff.1 h
  exact Int.dvd_mul_left count align

/-- **Stack discipline.** Every function of a program that can be emitted stands in its assembly,
and keeps to the discipline there. Whatever the tree of a statement is, no operand waits behind any
number of its steps up to the first that cannot be emitted, so none does where a statement inside it
starts or ends. -/
theorem Program.emit_disciplined :
    (∀ {p : Program} {asm : Assembly}, p.emit = .ok asm → ∀ f ∈ p.functions,
      ∃ before used frame after, asm.lines = before ++ f.lines used frame ++ after ∧
        f.lines used frame =
          f.entry frame ++ f.scanned used ++ Function.epilogue.map .instr ∧
        f.Disciplined used frame) ∧
    ∀ (s : Stmt) (name : String) (used : Nat) (steps : List Flow), steps <+: s.flow name used →
      (∀ e ∈ Flow.evaluated steps, e.fault? = none) → waiting (steps.flatMap Flow.lines) = 0 := by
  constructor
  · intro p asm h f hf
    obtain ⟨before, used, block, after, hblock, hlines⟩ := Program.emit_split h hf
    obtain ⟨frame, hframe, hbody, rfl⟩ := Function.emit_eq_ok hblock
    exact ⟨before, used, frame, after, hlines, f.lines_eq used frame,
      Function.disciplined used (Word.dvd_of_alignTo hframe) hbody⟩
  · intro s name used steps _ hsteps
    exact Flow.waiting_flatMap hsteps

/-- `int f(int n) { return f(n) + 1; }`: the call is made while an operand waits. -/
def Function.pending : Function :=
  let n : Local := ⟨"n", .int, -8⟩
  let arg : Expr := .var (.frame n) .int .nowhere
  { name := "f"
    params := [n]
    ty := .func .int
    locals := [n]
    body := .block [.ret (some (.binary .add (.call "f" [arg] .int .nowhere) (.num 1 .int .nowhere)
      .int .nowhere))]
    stackSize := 8 }

theorem Function.pending_disciplined :
    (∃ asm before used frame after, Program.emit ⟨[.function pending]⟩ = .ok asm ∧
      asm.lines = before ++ pending.lines used frame ++ after ∧ pending.Disciplined used frame) ∧
    pending.body.fault? = none ∧
    waiting ((pending.body.flow "f" 0).flatMap Flow.lines) = 0 := by
  refine ⟨?_, rfl, ?_⟩
  · obtain ⟨before, used, frame, after, hlines, -, h⟩ :=
      Program.emit_disciplined.1 (p := ⟨[.function pending]⟩) rfl pending List.mem_cons_self
    exact ⟨_, before, used, frame, after, rfl, hlines, h⟩
  · refine Program.emit_disciplined.2 pending.body "f" 0 _ (List.prefix_refl _) ?_
    intro e he
    rw [Stmt.evaluated_flow] at he
    exact (Stmt.fault?_eq_none_iff_roots pending.body).1 rfl e he

end WordC
