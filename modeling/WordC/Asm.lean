import WordC.Loc

/-!
# Assembly

An assembly text is a list of lines: directives, labels and instructions in AT&T order, the source
operand first. Only the instructions that the compiler uses are there. Labels inside functions are
numbered values and are spelled out only when a line is written.
-/
namespace WordC.Asm

/-! ## Operands -/

inductive Reg where
  | rax
  | rdi
  | rsi
  | rdx
  | rcx
  | r8
  | r9
  | rsp
  | rbp
  deriving DecidableEq, Repr

def Reg.text : Reg → String
  | rax => "%rax"
  | rdi => "%rdi"
  | rsi => "%rsi"
  | rdx => "%rdx"
  | rcx => "%rcx"
  | r8 => "%r8"
  | r9 => "%r9"
  | rsp => "%rsp"
  | rbp => "%rbp"

/-- The registers that pass the arguments of a call, first argument first. -/
def argRegs : List Reg := [.rdi, .rsi, .rdx, .rcx, .r8, .r9]

/-- The condition under which a comparison sets its result. -/
inductive Condition where
  | equal
  | notEqual
  | less
  | lessEqual
  deriving DecidableEq, Repr

def Condition.text : Condition → String
  | equal => "sete"
  | notEqual => "setne"
  | less => "setl"
  | lessEqual => "setle"

inductive Label where
  /-- The name of a variable or function. -/
  | symbol (name : String)
  /-- Where the branch of a false condition starts. -/
  | orElse (n : Nat)
  /-- Behind a conditional or a loop. -/
  | done (n : Nat)
  /-- Where a loop starts over. -/
  | begin (n : Nat)
  /-- Where the given function returns. -/
  | leave (function : String)
  deriving DecidableEq, Repr

def Label.text : Label → String
  | symbol name => name
  | orElse n => ".L.else." ++ toString n
  | done n => ".L.end." ++ toString n
  | begin n => ".L.begin." ++ toString n
  | leave f => ".L.return." ++ f

/-! ## Instructions -/

inductive Instr where
  | push (r : Reg)
  | pop (r : Reg)
  /-- A constant into a register. -/
  | const (n : Int) (dst : Reg)
  | move (src dst : Reg)
  /-- The word at the address in `src` into `dst`. -/
  | load (src dst : Reg)
  /-- The word in `src` to the address in `dst`. -/
  | store (src dst : Reg)
  /-- The word in `src` to a place in the frame. -/
  | spill (src : Reg) (offset : Int)
  /-- The address of a place in the frame. -/
  | frameAddr (offset : Int) (dst : Reg)
  /-- The address of a global variable. -/
  | dataAddr (name : String) (dst : Reg)
  | neg (r : Reg)
  | add (src dst : Reg)
  | sub (src dst : Reg)
  | mul (src dst : Reg)
  /-- The sign of `rax` over all of `rdx`. -/
  | signExtend
  /-- `rdx:rax` divided by `r`, the quotient into `rax`. -/
  | divide (r : Reg)
  | compare (src dst : Reg)
  | compareZero (r : Reg)
  /-- The outcome of the last comparison, 0 or 1, into the lowest byte of `rax`. -/
  | set (cond : Condition)
  /-- The lowest byte of `rax` over all of it. -/
  | widen
  | addConst (n : Int) (dst : Reg)
  | subConst (n : Int) (dst : Reg)
  | call (function : String)
  | jumpIfEqual (target : Label)
  | jump (target : Label)
  | ret
  deriving DecidableEq, Repr

namespace Instr

def text : Instr → String
  | push r => "push " ++ r.text
  | pop r => "pop " ++ r.text
  | const n dst => "mov $" ++ toString n ++ ", " ++ dst.text
  | move src dst => "mov " ++ src.text ++ ", " ++ dst.text
  | load src dst => "mov (" ++ src.text ++ "), " ++ dst.text
  | store src dst => "mov " ++ src.text ++ ", (" ++ dst.text ++ ")"
  | spill src offset => "mov " ++ src.text ++ ", " ++ toString offset ++ "(%rbp)"
  | frameAddr offset dst => "lea " ++ toString offset ++ "(%rbp), " ++ dst.text
  | dataAddr name dst => "lea " ++ name ++ "(%rip), " ++ dst.text
  | neg r => "neg " ++ r.text
  | add src dst => "add " ++ src.text ++ ", " ++ dst.text
  | sub src dst => "sub " ++ src.text ++ ", " ++ dst.text
  | mul src dst => "imul " ++ src.text ++ ", " ++ dst.text
  | signExtend => "cqo"
  | divide r => "idiv " ++ r.text
  | compare src dst => "cmp " ++ src.text ++ ", " ++ dst.text
  | compareZero r => "cmp $0, " ++ r.text
  | set cond => cond.text ++ " %al"
  | widen => "movzbl %al, %eax"
  | addConst n dst => "add $" ++ toString n ++ ", " ++ dst.text
  | subConst n dst => "sub $" ++ toString n ++ ", " ++ dst.text
  | call f => "call " ++ f
  | jumpIfEqual target => "je " ++ target.text
  | jump target => "jmp " ++ target.text
  | ret => "ret"

end Instr

/-! ## Lines -/

inductive Directive where
  | data
  | text
  | global (name : String)
  /-- So many zero bytes. -/
  | zero (bytes : Int)
  deriving DecidableEq, Repr

def Directive.spelling : Directive → String
  | data => ".data"
  | text => ".text"
  | global name => ".globl " ++ name
  | zero bytes => ".zero " ++ toString bytes

inductive Line where
  | directive (d : Directive)
  | label (l : Label)
  | instr (i : Instr)
  deriving DecidableEq, Repr

/-- A line with its line feed; labels stand at the margin. -/
def Line.text : Line → String
  | directive d => "    " ++ d.spelling ++ "\n"
  | label l => l.text ++ ":\n"
  | instr i => "    " ++ i.text ++ "\n"

end WordC.Asm

namespace WordC

/-- An assembly text. -/
structure Assembly where
  lines : List Asm.Line
  deriving DecidableEq, Repr

def Assembly.text (a : Assembly) : String := String.join (a.lines.map Asm.Line.text)

end WordC
