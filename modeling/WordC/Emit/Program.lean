import WordC.Emit.Flow

/-!
# Code for functions and programs

A function sets up its frame, stores its parameters in it, runs its body and leaves through one
common end. The frame is the sum of the locals rounded up to a multiple of 16. Global variables come
first, in the data section, and label numbers run on from function to function.
-/
namespace WordC

open Asm

/-! ## Functions -/

namespace Function

/-- Frame setup, with room for `frame` bytes. -/
def prologue (frame : Int) : List Instr :=
  [.push .rbp, .move .rsp .rbp] ++ if 0 < frame then [.subConst frame .rsp] else []

/-- Stores the parameters that come in registers. -/
def spills (params : List Local) : List Instr :=
  (params.zip argRegs).map fun (v, reg) => .spill reg v.offset

def epilogue : List Instr := [.move .rbp .rsp, .pop .rbp, .ret]

/-- The lines of the body, when `used` label numbers are taken. -/
def bodyLines (used : Nat) (f : Function) : List Line :=
  (f.body.flow f.name used).flatMap Flow.lines

/-- The lines of a function whose frame has `frame` bytes. -/
def lines (used : Nat) (frame : Int) (f : Function) : List Line :=
  [.directive (.global f.name), .label (.symbol f.name)] ++
    (prologue frame ++ spills f.params).map .instr ++ f.bodyLines used ++
    .label (.leave f.name) :: epilogue.map .instr

/-- The lines of a function, unless its frame or its body cannot be emitted. -/
def emit (used : Nat) (f : Function) : Except Fault (List Line) := do
  let frame ← Word.alignTo f.stackSize 16
  match f.body.fault? with
  | some fault => throw fault
  | none => return f.lines used frame

end Function

/-! ## Programs -/

/-- Room for a global variable. -/
def Global.emit (v : Global) : Except Fault (List Line) := do
  let size ← v.ty.size
  return [.directive (.global v.name), .label (.symbol v.name), .directive (.zero size)]

namespace Program

def emitGlobals : List Global → Except Fault (List Line)
  | [] => return []
  | v :: vs => do
    let first ← v.emit
    let more ← emitGlobals vs
    return first ++ more

def emitFunctions : Nat → List Function → Except Fault (List Line)
  | _, [] => return []
  | used, f :: fs => do
    let first ← f.emit used
    let more ← emitFunctions (used + f.body.labels) fs
    return first ++ more

/-- The data section, which is left out if it would be empty. -/
def emitData (p : Program) : Except Fault (List Line) := do
  let lines ← emitGlobals p.globals
  return if p.globals.isEmpty then [] else .directive .data :: lines

/-- The whole assembly. -/
def emit (p : Program) : Except Fault Assembly := do
  let data ← p.emitData
  let code ← emitFunctions 0 p.functions
  return ⟨data ++ .directive .text :: code⟩

/-- How many label numbers the given functions take. -/
def functionLabels : List Function → Nat
  | [] => 0
  | f :: fs => f.body.labels + functionLabels fs

/-- How many label numbers the program takes. -/
def labels (p : Program) : Nat := functionLabels p.functions

end Program

end WordC
