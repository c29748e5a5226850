import WordC.Proofs.Blocks
import WordC.Proofs.Names
import WordC.Proofs.Safety

/-!
# Jumps and their targets

An assembler resolves a jump by the spelling of its target. In the assembly of a source text this
never fails and is never ambiguous: every label is defined on one line only, and each jump stays
within the lines of its function.

* `Asm.labels`, `Asm.targets`: what lines define and where they jump to.
* `Stmt.targets_flow`: a statement jumps to its own labels or to the end of its function.
* `Function.mem_labels_of_mem_targets`: a function defines every label that it jumps to.
* `compile_resolved`: the labels and jumps in the assembly of a source text.
-/
namespace WordC

open Asm

/-! ## Lines -/

namespace Asm

/-- The label that an instruction jumps to. -/
def Instr.target? : Instr → Option Label
  | jumpIfEqual target => some target
  | jump target => some target
  | _ => none

/-- The label that a line jumps to. -/
def Line.target? : Line → Option Label
  | instr i => i.target?
  | _ => none

/-- The label that a line defines. -/
def Line.label? : Line → Option Label
  | label l => some l
  | _ => none

/-- The labels that the given lines define. -/
def labels (ls : List Line) : List Label := ls.filterMap Line.label?

/-- The labels that the given lines jump to. -/
def targets (ls : List Line) : List Label := ls.filterMap Line.target?

@[simp] theorem labels_append (ls ls' : List Line) : labels (ls ++ ls') = labels ls ++ labels ls' :=
  List.filterMap_append

@[simp] theorem targets_append (ls ls' : List Line) :
    targets (ls ++ ls') = targets ls ++ targets ls' :=
  List.filterMap_append

/-- How often the given lines define a label with this spelling. -/
def definitions (ls : List Line) (text : String) : Nat := ((labels ls).map Label.text).count text

/-- Straight code has no targets. -/
theorem targets_instrs {is : List Instr} (h : ∀ i ∈ is, i.target? = none) :
    targets (is.map .instr) = [] := by
  simpa [targets, Line.target?] using h

theorem labels_instrs (is : List Instr) : labels (is.map .instr) = [] := by
  simp [labels, Line.label?]

/-- The labels of a listing are those of its lines. -/
theorem labels_lines (cells : List Cell) :
    labels (cells.flatMap Cell.lines) = Cell.labels cells := by
  induction cells with
  | nil => rfl
  | cons cell cells ih =>
    rw [List.flatMap_cons, labels_append, ih]
    cases cell with
    | block e => rw [Cell.lines, labels_instrs]; rfl
    | line l => cases l <;> rfl

end Asm

/-! ## Expressions -/

namespace Expr

theorem target?_pushArgs {args : List Expr}
    (h : ∀ arg ∈ args, ∀ depth, ∀ i ∈ arg.code depth, i.target? = none) :
    ∀ depth, ∀ i ∈ pushArgs depth args, i.target? = none := by
  induction args with
  | nil => intro depth i hi; cases hi
  | cons arg args ih =>
    intro depth
    obtain ⟨harg, hargs⟩ := List.forall_mem_cons.1 h
    simp only [pushArgs, List.forall_mem_append, List.forall_mem_singleton]
    exact ⟨⟨harg depth, rfl⟩, ih hargs (depth + 1)⟩

theorem target?_loadInstrs (ty : Ty) : ∀ i ∈ loadInstrs ty, i.target? = none := by
  unfold loadInstrs
  split <;> simp [Instr.target?]

theorem target?_varInstrs (v : Var) : ∀ i ∈ varInstrs v, i.target? = none := by
  cases v <;> simp [varInstrs, Instr.target?]

theorem target?_callInstrs (callee : String) (depth : Nat) :
    ∀ i ∈ callInstrs callee depth, i.target? = none := by
  unfold callInstrs
  split <;> simp [Instr.target?]

theorem target?_popArgs (count : Nat) : ∀ i ∈ popArgs count, i.target? = none := by
  intro i hi
  obtain ⟨r, -, rfl⟩ := List.mem_map.1 hi
  rfl

theorem target?_binary (op : BinaryOp) : ∀ i ∈ op.instrs, i.target? = none := by
  cases op <;> simp [BinaryOp.instrs, Instr.target?]

/-- The code of an expression never jumps. -/
theorem target?_code (e : Expr) :
    (∀ depth, ∀ i ∈ e.code depth, i.target? = none) ∧
      ∀ depth, ∀ i ∈ e.addressCode depth, i.target? = none := by
  induction e with
  | num value ty loc => simp [code, addressCode, Instr.target?]
  | var v ty loc =>
    have hv := target?_varInstrs v
    simp only [code, addressCode, List.forall_mem_append]
    exact ⟨fun _ => ⟨hv, target?_loadInstrs ty⟩, fun _ => hv⟩
  | unary op operand ty loc ih =>
    obtain ⟨hcode, haddress⟩ := ih
    cases op with
    | neg =>
      simp only [code, addressCode, List.forall_mem_append, List.forall_mem_singleton]
      exact ⟨fun depth => ⟨hcode depth, rfl⟩, fun _ => List.forall_mem_nil _⟩
    | addr => exact ⟨haddress, fun _ => List.forall_mem_nil _⟩
    | deref =>
      simp only [code, addressCode, List.forall_mem_append]
      exact ⟨fun depth => ⟨hcode depth, target?_loadInstrs ty⟩, hcode⟩
  | binary op lhs rhs ty loc ihl ihr =>
    simp only [code, addressCode, List.forall_mem_append, List.forall_mem_singleton]
    refine ⟨fun depth => ?_, fun _ => List.forall_mem_nil _⟩
    exact ⟨⟨⟨⟨ihr.1 depth, rfl⟩, ihl.1 (depth + 1)⟩, rfl⟩, target?_binary op⟩
  | assign lhs rhs ty loc ihl ihr =>
    simp only [code, addressCode, List.forall_mem_append, List.forall_mem_singleton]
    refine ⟨fun depth => ⟨⟨⟨ihl.2 depth, rfl⟩, ihr.1 (depth + 1)⟩, ?_⟩, fun _ => List.forall_mem_nil _⟩
    simp [Instr.target?]
  | call callee args ty loc ih =>
    simp only [code, addressCode, List.forall_mem_append]
    refine ⟨fun depth => ?_, fun _ => List.forall_mem_nil _⟩
    exact ⟨⟨target?_pushArgs (fun arg harg => (ih arg harg).1) depth, target?_popArgs _⟩,
      target?_callInstrs callee depth⟩

end Expr

/-! ## Statements -/

namespace Flow

/-- The label that a step jumps to. -/
def target? : Flow → Option Label
  | branchZero target => some target
  | jump target => some target
  | _ => none

/-- The labels that the given steps jump to. -/
def targets (fs : List Flow) : List Label := fs.filterMap target?

@[simp, grind =] theorem targets_nil : targets [] = [] := rfl

@[simp, grind =] theorem targets_eval (e : Expr) (fs : List Flow) :
    targets (eval e :: fs) = targets fs := rfl

@[simp, grind =] theorem targets_branchZero (l : Label) (fs : List Flow) :
    targets (branchZero l :: fs) = l :: targets fs := rfl

@[simp, grind =] theorem targets_jump (l : Label) (fs : List Flow) :
    targets (jump l :: fs) = l :: targets fs := rfl

@[simp, grind =] theorem targets_label (l : Label) (fs : List Flow) :
    targets (label l :: fs) = targets fs := rfl

@[simp, grind =] theorem targets_append (fs gs : List Flow) :
    targets (fs ++ gs) = targets fs ++ targets gs :=
  List.filterMap_append

@[simp, grind =] theorem targets_evalOption (e : Option Expr) : targets (evalOption e) = [] := by
  cases e <;> rfl

@[grind →] theorem eq_of_mem_targets_testOption {l l' : Label} {e : Option Expr}
    (h : l ∈ targets (testOption l' e)) : l = l' := by
  cases e with
  | none => cases h
  | some e => simpa [testOption] using h

/-- Only the steps of the control flow jump, not the expressions between them. -/
theorem targets_lines (fs : List Flow) : Asm.targets (fs.flatMap lines) = targets fs := by
  induction fs with
  | nil => rfl
  | cons f fs ih =>
    rw [List.flatMap_cons, Asm.targets_append, ih]
    cases f with
    | eval e => rw [lines, targets_instrs (e.target?_code.1 0)]; rfl
    | branchZero l | jump l | label l => rfl

end Flow

/-- A statement jumps to its own labels, or to where its function returns. -/
theorem Stmt.targets_flow (f : String) (s : Stmt) : ∀ used, ∀ l ∈ Flow.targets (s.flow f used),
    l ∈ Flow.labels (s.flow f used) ∨ l = .leave f := by
  induction s with
  | eval e => intro used l hl; simp [flow] at hl
  | ret value => intro used l hl; simpa [flow] using hl
  | block stmts ih =>
    simp only [flow]
    induction stmts with
    | nil => intro used l hl; cases hl
    | cons s ss ihs =>
      intro used l hl
      obtain ⟨hs, hss⟩ := List.forall_mem_cons.1 ih
      simp only [flowAll, Flow.targets_append, Flow.labels_append, List.mem_append] at hl ⊢
      rcases hl with hl | hl
      · exact (hs used l hl).imp_left .inl
      · exact (ihs hss _ l hl).imp_left .inr
  | ite cond onTrue onFalse iht ihf =>
    intro used l hl
    have htrue := iht (used + 1) l
    cases onFalse with
    | none =>
      simp only [flow] at hl ⊢
      grind
    | some onFalse =>
      have hfalse := ihf onFalse rfl (used + 1 + onTrue.labels) l
      simp only [flow] at hl ⊢
      grind
  | loop init cond step body ihi ihb =>
    intro used l hl
    cases init with
    | none =>
      have hbody := ihb (used + 1) l
      simp only [flow] at hl ⊢
      grind
    | some init =>
      have hinit := ihi init rfl (used + 1) l
      have hbody := ihb (used + 1 + init.labels) l
      simp only [flow] at hl ⊢
      grind

/-! ## Functions and programs -/

namespace Function

variable (used : Nat) (frame : Int) (f : Function)

theorem labels_lines : Asm.labels (f.lines used frame) =
    .symbol f.name :: Flow.labels (f.body.flow f.name used) ++ [.leave f.name] := by
  rw [← f.lines_cells, Asm.labels_lines, f.labels_cells]

theorem targets_lines :
    Asm.targets (f.lines used frame) = Flow.targets (f.body.flow f.name used) := by
  have hsetup : Asm.targets ((prologue frame ++ spills f.params).map .instr) = [] := by
    refine targets_instrs (List.forall_mem_append.2 ⟨?_, ?_⟩)
    · unfold prologue
      split <;> simp [Instr.target?]
    · intro i hi
      obtain ⟨⟨v, r⟩, -, rfl⟩ := List.mem_map.1 hi
      rfl
  have hend : Asm.targets (.label (.leave f.name) :: epilogue.map .instr) = [] := rfl
  have hstart : Asm.targets [.directive (.global f.name), .label (.symbol f.name)] = [] := rfl
  rw [lines, Asm.targets_append, Asm.targets_append, Asm.targets_append, hstart, hsetup, hend,
    bodyLines, Flow.targets_lines]
  simp

/-- Jumps stay within their function. -/
theorem mem_labels_of_mem_targets {l : Label} (h : l ∈ Asm.targets (f.lines used frame)) :
    l ∈ Asm.labels (f.lines used frame) := by
  rw [f.targets_lines] at h
  rw [f.labels_lines]
  rcases f.body.targets_flow f.name used l h with hl | rfl
  · exact List.mem_append_left _ (List.mem_cons_of_mem _ hl)
  · exact List.mem_append_right _ (List.mem_singleton_self _)

end Function

namespace Program

variable {p : Program} {asm : Assembly}

/-- No two lines define labels with the same spelling. -/
theorem nodup_spellings (h : p.emit = .ok asm) (hspelled : ∀ o ∈ p.objects, isIdentifier o.name)
    (hnames : (p.objects.map Object.name).Nodup) :
    ((Asm.labels asm.lines).map Label.text).Nodup := by
  rw [p.emit_eq_listing] at h
  cases hlisting : p.listing with
  | error fault => rw [hlisting] at h; cases h
  | ok cells =>
    rw [hlisting] at h
    cases h
    have hproper := p.proper_labels hlisting hspelled
    rw [Asm.labels_lines]
    exact (p.nodup_labels hlisting hnames).map_on fun l hl l' hl' =>
      Label.text_inj (hproper l hl) (hproper l' hl')

theorem targets_emitGlobals {vs : List Global} : ∀ {lines : List Line},
    emitGlobals vs = .ok lines → Asm.targets lines = [] := by
  induction vs with
  | nil => intro lines h; cases h; rfl
  | cons v vs ih =>
    intro lines h
    obtain ⟨first, hfirst, h⟩ := Word.bind_eq_ok_iff.1 h
    obtain ⟨more, hmore, h⟩ := Word.bind_eq_ok_iff.1 h
    obtain ⟨size, rfl⟩ := Global.emit_eq_ok hfirst
    cases h
    rw [Asm.targets_append, ih hmore]
    rfl

/-- Nothing jumps in the data section. -/
theorem targets_emitData {data : List Line} (h : p.emitData = .ok data) : Asm.targets data = [] := by
  obtain ⟨lines, hlines, h⟩ := Word.bind_eq_ok_iff.1 h
  cases h
  split
  · rfl
  · exact (targets_emitGlobals hlines : Asm.targets lines = [])

/-- The assembly is a data section, in which nothing jumps, and a block of lines for each function of
the program. No two of its lines define labels with the same spelling, and what a line of a block
jumps to is defined exactly once, in that block. -/
def Resolved (p : Program) (asm : Assembly) : Prop :=
  ∃ data blocks,
    asm.lines = data ++ .directive .text :: blocks.flatten ∧
    ((Asm.labels asm.lines).map Label.text).Nodup ∧
    Asm.targets data = [] ∧
    List.Forall₂ (fun f block =>
      (∃ used, f.emit used = .ok block) ∧
      ∀ target ∈ Asm.targets block,
        Asm.definitions block target.text = 1 ∧ Asm.definitions asm.lines target.text = 1)
      p.functions blocks

/-- Names that are identifiers, and different ones, are all it takes. -/
theorem emit_resolved (h : p.emit = .ok asm) (hspelled : ∀ o ∈ p.objects, isIdentifier o.name)
    (hnames : (p.objects.map Object.name).Nodup) : p.Resolved asm := by
  have hnodup := nodup_spellings h hspelled hnames
  obtain ⟨data, blocks, hdata, hlines, hblocks⟩ := emit_blocks h
  refine ⟨data, blocks, hlines, hnodup, targets_emitData hdata, ?_⟩
  refine List.forall₂_iff_zip.2 ⟨hblocks.length_eq, fun {f block} hzip => ?_⟩
  obtain ⟨used, hemit⟩ := List.forall₂_zip hblocks hzip
  refine ⟨⟨used, hemit⟩, fun target htarget => ?_⟩
  -- The block is a part of the whole, so its labels are among the different labels of the whole.
  have hsub : block.Sublist asm.lines := by
    rw [hlines]
    have hblock := List.sublist_flatten_of_mem (List.of_mem_zip hzip).2
    exact (hblock.cons _).trans (List.sublist_append_right _ _)
  have hspellings := (hsub.filterMap Line.label?).map Label.text
  obtain ⟨frame, -, -, rfl⟩ := Function.emit_eq_ok hemit
  have hlabel := f.mem_labels_of_mem_targets used frame htarget
  have htext := List.mem_map_of_mem (f := Label.text) hlabel
  exact ⟨List.count_eq_one_of_mem (hnodup.sublist hspellings) htext,
    List.count_eq_one_of_mem hnodup (hspellings.subset htext)⟩

end Program

/-- **Every jump has one target.** Whatever was announced, defined, rejected or skipped on the way,
the assembly of a source text is resolved: no two lines of it define labels with the same spelling,
and what a line jumps to is defined exactly once, among the lines of the same function. -/
theorem compile_resolved {source text : String} {c : Compilation} (h : compile source = .ok c)
    (htext : c.assembly = some text) :
    ∃ parsed asm, Parse.parse (Source.tokenize source).tokens = .ok parsed ∧
      parsed.program.emit = .ok asm ∧ asm.text = text ∧ parsed.program.Resolved asm := by
  obtain ⟨parsed, asm, haccepts, htext⟩ := compile_accepts h htext
  obtain ⟨hspelled, hnames, -⟩ := Parse.parse_named (Source.spelled_tokenize source) haccepts.parse
  exact ⟨parsed, asm, haccepts.parse, haccepts.emit, htext,
    Program.emit_resolved haccepts.emit hspelled hnames⟩

/-- Two functions with a conditional and two loops, one of them announced before. -/
def loopingSource : String :=
  "int g[2]; int f(int n); int main() \x7b for (;;) if (f(3)) return g[0]; \x7d " ++
    "int f(int n) \x7b while (n) n = n - 1; if (n) return 1; else return g[1]; \x7d"

theorem loopingSource_resolved :
    ∃ c text parsed asm, compile loopingSource = .ok c ∧ c.assembly = some text ∧
      Parse.parse (Source.tokenize loopingSource).tokens = .ok parsed ∧
      parsed.program.emit = .ok asm ∧ asm.text = text ∧ parsed.program.Resolved asm := by
  obtain ⟨c, text, hcompile, htext⟩ := exists_assembly loopingSource (by decide +kernel)
  obtain ⟨parsed, asm, hresolved⟩ := compile_resolved hcompile htext
  exact ⟨c, text, parsed, asm, hcompile, htext, hresolved⟩

end WordC
