import WordC.Proofs.Labels

/-!
# Listings

A listing is an assembly in which the lines of each expression are kept together as one block.
Everything between the blocks is control flow: labels, jumps, and the two ends of functions.

* `Program.emit_eq_listing`: the assembly of a program is its listing with the blocks spelled out.
* `Program.nodup_labels`: if the objects of a program have different names, no label is defined twice
  in its listing; `Program.proper_labels`: if the names are identifiers, so are those in the labels.
* `Program.listing_split`: every function stands somewhere in the listing of its program.
-/
namespace WordC

open Asm

/-! ## Cells -/

/-- One line, or all the lines of one expression. -/
inductive Cell where
  | line (l : Line)
  | block (e : Expr)

namespace Cell

/-- No operand waits on the stack where a block starts. -/
def lines : Cell → List Line
  | line l => [l]
  | block e => (e.code 0).map .instr

/-- The label that a cell defines. -/
def label? : Cell → Option Label
  | line (.label l) => some l
  | _ => none

/-- The labels that a listing defines. -/
def labels (cells : List Cell) : List Label := cells.filterMap label?

@[simp] theorem labels_nil : labels [] = [] := rfl

@[simp] theorem labels_append (cs ds : List Cell) : labels (cs ++ ds) = labels cs ++ labels ds :=
  List.filterMap_append

@[simp] theorem labels_label (l : Label) (cs : List Cell) :
    labels (line (.label l) :: cs) = l :: labels cs := rfl

@[simp] theorem labels_directive (d : Directive) (cs : List Cell) :
    labels (line (.directive d) :: cs) = labels cs := rfl

@[simp] theorem labels_instr (i : Instr) (cs : List Cell) :
    labels (line (.instr i) :: cs) = labels cs := rfl

@[simp] theorem labels_block (e : Expr) (cs : List Cell) : labels (block e :: cs) = labels cs := rfl

/-- Each instruction a cell of its own. -/
def instrs (is : List Instr) : List Cell := is.map fun i => line (.instr i)

@[simp] theorem labels_instrs (is : List Instr) : labels (instrs is) = [] := by
  induction is with
  | nil => rfl
  | cons i is ih => exact ih

@[simp] theorem lines_instrs (is : List Instr) : (instrs is).flatMap lines = is.map .instr := by
  induction is with
  | nil => rfl
  | cons i is ih => exact congrArg (Line.instr i :: ·) ih

end Cell

/-! ## Statements and functions -/

/-- The cells of a step. -/
def Flow.cells : Flow → List Cell
  | eval e => [.block e]
  | branchZero target => Cell.instrs [.compareZero .rax, .jumpIfEqual target]
  | jump target => Cell.instrs [.jump target]
  | label l => [.line (.label l)]

theorem Flow.lines_cells (s : Flow) : s.cells.flatMap Cell.lines = s.lines := by
  cases s <;> simp [cells, lines, Cell.lines]

theorem Flow.labels_cells (fs : List Flow) : Cell.labels (fs.flatMap cells) = labels fs := by
  induction fs with
  | nil => rfl
  | cons f fs ih => cases f <;> simp [cells, ih]

namespace Function

/-- The cells of the body, when `used` label numbers are taken. -/
def bodyCells (used : Nat) (f : Function) : List Cell :=
  (f.body.flow f.name used).flatMap Flow.cells

/-- The cells of a function whose frame has `frame` bytes. -/
def cells (used : Nat) (frame : Int) (f : Function) : List Cell :=
  [.line (.directive (.global f.name)), .line (.label (.symbol f.name))] ++
    Cell.instrs (prologue frame ++ spills f.params) ++ f.bodyCells used ++
    .line (.label (.leave f.name)) :: Cell.instrs epilogue

theorem lines_cells (used : Nat) (frame : Int) (f : Function) :
    (f.cells used frame).flatMap Cell.lines = f.lines used frame := by
  have hbody : (f.bodyCells used).flatMap Cell.lines = f.bodyLines used := by
    simp only [bodyCells, bodyLines, List.flatMap_assoc, Flow.lines_cells]
  simp [cells, lines, Cell.lines, hbody]

/-- The listing of a function, unless its frame or its body cannot be emitted. -/
def listing (used : Nat) (f : Function) : Except Fault (List Cell) := do
  let frame ← Word.alignTo f.stackSize 16
  match f.body.fault? with
  | some fault => throw fault
  | none => return f.cells used frame

theorem emit_eq_listing (used : Nat) (f : Function) :
    f.emit used = (f.listing used).map (·.flatMap Cell.lines) := by
  simp only [emit, listing]
  cases Word.alignTo f.stackSize 16 with
  | error fault => rfl
  | ok frame =>
    cases f.body.fault? with
    | some fault => rfl
    | none => exact congrArg Except.ok (f.lines_cells used frame).symm

theorem listing_eq_ok {used : Nat} {f : Function} {cells : List Cell}
    (h : f.listing used = .ok cells) : ∃ frame, cells = f.cells used frame := by
  obtain ⟨frame, -, h⟩ := Word.bind_eq_ok_iff.1 h
  split at h
  · cases h
  · exact ⟨frame, (Except.ok.inj h).symm⟩

/-- A function defines its name, the labels of its body, and the label at which it returns. -/
theorem labels_cells (used : Nat) (frame : Int) (f : Function) :
    Cell.labels (f.cells used frame) =
      .symbol f.name :: Flow.labels (f.body.flow f.name used) ++ [.leave f.name] := by
  have hend : Cell.labels (Cell.instrs epilogue) = [] := Cell.labels_instrs epilogue
  simp [cells, bodyCells, Flow.labels_cells, hend]

theorem nodup_labels (used : Nat) (frame : Int) (f : Function) :
    (Cell.labels (f.cells used frame)).Nodup := by
  obtain ⟨hnodup, hnumbered⟩ := f.body.numbered_flow f.name used
  rw [f.labels_cells]
  refine List.nodup_append.2 ⟨List.nodup_cons.2 ⟨?_, hnodup⟩, List.nodup_singleton _, ?_⟩
  · intro hl
    obtain ⟨n, hn, -⟩ := hnumbered _ hl
    cases hn
  · intro l hl l' hl' heq
    rw [List.mem_singleton.1 hl'] at heq
    rcases List.mem_cons.1 hl with rfl | hl
    · cases heq
    · obtain ⟨n, hn, -⟩ := hnumbered l hl
      rw [heq] at hn
      cases hn

end Function

/-! ## Programs -/

theorem Global.emit_eq_ok {v : Global} {lines : List Line} (h : v.emit = .ok lines) :
    ∃ size, lines = [.directive (.global v.name), .label (.symbol v.name), .directive (.zero size)] := by
  obtain ⟨size, -, h⟩ := Word.bind_eq_ok_iff.1 h
  exact ⟨size, (Except.ok.inj h).symm⟩

namespace Program

/-- The listing of the given functions, when `used` label numbers are taken. -/
def listFunctions : Nat → List Function → Except Fault (List Cell)
  | _, [] => return []
  | used, f :: fs => do
    let first ← f.listing used
    let more ← listFunctions (used + f.body.labels) fs
    return first ++ more

/-- The listing of a program: the whole assembly with its blocks kept together. -/
def listing (p : Program) : Except Fault (List Cell) := do
  let data ← p.emitData
  let code ← listFunctions 0 p.functions
  return data.map .line ++ .line (.directive .text) :: code

theorem emitFunctions_eq_listFunctions (fs : List Function) : ∀ used,
    emitFunctions used fs = (listFunctions used fs).map (·.flatMap Cell.lines) := by
  induction fs with
  | nil => intro used; rfl
  | cons f fs ih =>
    intro used
    simp only [emitFunctions, listFunctions, ih, f.emit_eq_listing]
    cases f.listing used with
    | error fault => rfl
    | ok first =>
      cases listFunctions (used + f.body.labels) fs with
      | error fault => rfl
      | ok more => exact congrArg Except.ok List.flatMap_append.symm

theorem emit_eq_listing (p : Program) :
    p.emit = p.listing.map fun cells => ⟨cells.flatMap Cell.lines⟩ := by
  simp only [emit, listing, emitFunctions_eq_listFunctions]
  cases p.emitData with
  | error fault => rfl
  | ok data =>
    have hdata : (data.map Cell.line).flatMap Cell.lines = data := by
      induction data with
      | nil => rfl
      | cons l ls ih => exact congrArg (l :: ·) ih
    cases listFunctions 0 p.functions with
    | error fault => rfl
    | ok code =>
      refine congrArg (fun ls => Except.ok (Assembly.mk ls)) ?_
      simp [List.flatMap_append, hdata, Cell.lines]

/-- The parts of a listing. -/
theorem listing_eq_ok {p : Program} {cells : List Cell} (h : p.listing = .ok cells) :
    ∃ data code, p.emitData = .ok data ∧ listFunctions 0 p.functions = .ok code ∧
      cells = data.map .line ++ .line (.directive .text) :: code := by
  obtain ⟨data, hdata, h⟩ := Word.bind_eq_ok_iff.1 h
  obtain ⟨code, hcode, h⟩ := Word.bind_eq_ok_iff.1 h
  exact ⟨data, code, hdata, hcode, (Except.ok.inj h).symm⟩

theorem listFunctions_cons {used : Nat} {f : Function} {fs : List Function} {cells : List Cell}
    (h : listFunctions used (f :: fs) = .ok cells) :
    ∃ frame more, listFunctions (used + f.body.labels) fs = .ok more ∧
      cells = f.cells used frame ++ more := by
  obtain ⟨first, hfirst, h⟩ := Word.bind_eq_ok_iff.1 h
  obtain ⟨more, hmore, h⟩ := Word.bind_eq_ok_iff.1 h
  obtain ⟨frame, rfl⟩ := Function.listing_eq_ok hfirst
  exact ⟨frame, more, hmore, (Except.ok.inj h).symm⟩

theorem listFunctions_split {f : Function} {fs : List Function} : ∀ {used : Nat} {cells : List Cell},
    listFunctions used fs = .ok cells → f ∈ fs →
    ∃ before used frame after, cells = before ++ f.cells used frame ++ after := by
  induction fs with
  | nil => intro used cells _ hf; cases hf
  | cons g fs ih =>
    intro used cells h hf
    obtain ⟨frame, more, hmore, rfl⟩ := listFunctions_cons h
    rcases List.mem_cons.1 hf with rfl | hf
    · exact ⟨[], used, frame, more, by simp⟩
    · obtain ⟨before, used', frame', after, rfl⟩ := ih hmore hf
      exact ⟨g.cells used frame ++ before, used', frame', after, by simp⟩

/-- Every function of a program stands in its listing. -/
theorem listing_split {p : Program} {cells : List Cell} {f : Function} (h : p.listing = .ok cells)
    (hf : f ∈ p.functions) :
    ∃ before used frame after, cells = before ++ f.cells used frame ++ after := by
  obtain ⟨data, code, -, hcode, rfl⟩ := listing_eq_ok h
  obtain ⟨before, used, frame, after, rfl⟩ := listFunctions_split hcode hf
  exact ⟨data.map .line ++ .line (.directive .text) :: before, used, frame, after, by simp⟩

/-! ## The labels of programs -/

theorem labels_emitGlobals : ∀ {vs : List Global} {lines : List Line},
    emitGlobals vs = .ok lines → Cell.labels (lines.map .line) = vs.map fun v => .symbol v.name := by
  intro vs
  induction vs with
  | nil => intro lines h; cases h; rfl
  | cons v vs ih =>
    intro lines h
    obtain ⟨first, hfirst, h⟩ := Word.bind_eq_ok_iff.1 h
    obtain ⟨more, hmore, h⟩ := Word.bind_eq_ok_iff.1 h
    obtain ⟨size, rfl⟩ := Global.emit_eq_ok hfirst
    cases h
    simpa using ih hmore

theorem labels_emitData {p : Program} {lines : List Line} (h : p.emitData = .ok lines) :
    Cell.labels (lines.map .line) = p.globals.map fun v => .symbol v.name := by
  obtain ⟨lines', hlines, h⟩ := Word.bind_eq_ok_iff.1 h
  have hlabels := labels_emitGlobals hlines
  cases hp : p.globals with
  | nil => rw [hp] at h; cases h; rfl
  | cons v vs =>
    rw [hp] at h hlabels
    cases h
    simpa using hlabels

/-- A label of a function list bears the name of one of the functions, or a number that was not
taken before. -/
theorem mem_labels_listFunctions {fs : List Function} {l : Label} :
    ∀ {used : Nat} {cells : List Cell}, listFunctions used fs = .ok cells →
    l ∈ Cell.labels cells →
    (∃ f ∈ fs, l.name? = some f.name) ∨ ∃ n, l.number? = some n ∧ used < n := by
  induction fs with
  | nil => intro used cells h hl; cases h; cases hl
  | cons f fs ih =>
    intro used cells h hl
    obtain ⟨frame, more, hmore, rfl⟩ := listFunctions_cons h
    rw [Cell.labels_append, f.labels_cells, List.mem_append] at hl
    rcases hl with hl | hl
    · simp only [List.cons_append, List.mem_cons, List.mem_append, List.not_mem_nil, or_false] at hl
      rcases hl with rfl | hl | rfl
      · exact .inl ⟨f, List.mem_cons_self, rfl⟩
      · obtain ⟨n, hn, hlt, -⟩ := (f.body.numbered_flow f.name used).2 l hl
        exact .inr ⟨n, hn, hlt⟩
      · exact .inl ⟨f, List.mem_cons_self, rfl⟩
    · rcases ih hmore hl with ⟨g, hg, hname⟩ | ⟨n, hn, hlt⟩
      · exact .inl ⟨g, List.mem_cons_of_mem f hg, hname⟩
      · exact .inr ⟨n, hn, by omega⟩

theorem nodup_labels_listFunctions {fs : List Function} :
    ∀ {used : Nat} {cells : List Cell}, listFunctions used fs = .ok cells →
    (fs.map Function.name).Nodup → (Cell.labels cells).Nodup := by
  induction fs with
  | nil => intro used cells h _; cases h; exact List.nodup_nil
  | cons f fs ih =>
    intro used cells h hnames
    obtain ⟨frame, more, hmore, rfl⟩ := listFunctions_cons h
    obtain ⟨hf, hfs⟩ := List.nodup_cons.1 hnames
    rw [Cell.labels_append]
    refine List.nodup_append'.2 ⟨f.nodup_labels used frame, ih hmore hfs, fun l hl hl' => ?_⟩
    -- The other functions have other names and later numbers.
    have hlater := mem_labels_listFunctions hmore hl'
    have hname : l.name? ≠ some f.name := by
      intro hname
      rcases hlater with ⟨g, hg, hg'⟩ | ⟨n, hn, -⟩
      · exact hf (List.mem_map.2 ⟨g, hg, Option.some.inj (hg'.symm.trans hname)⟩)
      · rw [Label.name?_of_number? hn] at hname
        cases hname
    rw [f.labels_cells] at hl
    simp only [List.cons_append, List.mem_cons, List.mem_append, List.not_mem_nil, or_false] at hl
    rcases hl with rfl | hl | rfl
    · exact hname rfl
    · obtain ⟨n, hn, -, hle⟩ := (f.body.numbered_flow f.name used).2 l hl
      rcases hlater with ⟨g, -, hg⟩ | ⟨n', hn', hlt⟩
      · rw [Label.name?_of_number? hn] at hg
        cases hg
      · cases hn.symm.trans hn'
        omega
    · exact hname rfl

/-- The names of the objects are those of the variables and those of the functions. -/
theorem names_perm (p : Program) :
    (p.objects.map Object.name).Perm (p.globals.map Global.name ++ p.functions.map Function.name) := by
  obtain ⟨os⟩ := p
  simp only [globals, functions]
  induction os with
  | nil => exact .nil
  | cons o os ih =>
    cases o with
    | global v => exact ih.cons v.name
    | function f => exact (ih.cons f.name).trans List.perm_middle.symm

/-- If the objects of a program have different names, no label of its listing is defined twice. -/
theorem nodup_labels {p : Program} {cells : List Cell} (h : p.listing = .ok cells)
    (hnames : (p.objects.map Object.name).Nodup) : (Cell.labels cells).Nodup := by
  obtain ⟨data, code, hdata, hcode, rfl⟩ := listing_eq_ok h
  obtain ⟨hglobals, hfunctions, hapart⟩ := List.nodup_append'.1 (p.names_perm.nodup_iff.1 hnames)
  rw [Cell.labels_append, Cell.labels_directive, labels_emitData hdata]
  refine List.nodup_append'.2 ⟨?_, nodup_labels_listFunctions hcode hfunctions, ?_⟩
  · rw [← Function.comp_def, ← List.map_map]
    exact hglobals.map fun _ _ => Label.symbol.inj
  · intro l hl hl'
    obtain ⟨v, hv, rfl⟩ := List.mem_map.1 hl
    rcases mem_labels_listFunctions hcode hl' with ⟨f, hf, hname⟩ | ⟨n, hn, -⟩
    · refine hapart (List.mem_map_of_mem hv) ?_
      rw [Option.some.inj hname]
      exact List.mem_map_of_mem hf
    · cases hn

/-- If the objects of a program are named by identifiers, so are the labels of its listing. -/
theorem proper_labels {p : Program} {cells : List Cell} (h : p.listing = .ok cells)
    (hnames : ∀ o ∈ p.objects, isIdentifier o.name) : ∀ l ∈ Cell.labels cells, l.Proper := by
  obtain ⟨data, code, hdata, hcode, rfl⟩ := listing_eq_ok h
  rw [Cell.labels_append, Cell.labels_directive, labels_emitData hdata]
  have hname {name : String}
      (hmem : name ∈ p.globals.map Global.name ++ p.functions.map Function.name) :
      isIdentifier name := by
    obtain ⟨o, ho, rfl⟩ := List.mem_map.1 (p.names_perm.mem_iff.2 hmem)
    exact hnames o ho
  intro l hl name hl'
  rcases List.mem_append.1 hl with hl | hl
  · obtain ⟨v, hv, rfl⟩ := List.mem_map.1 hl
    cases hl'
    exact hname (List.mem_append_left _ (List.mem_map_of_mem hv))
  · rcases mem_labels_listFunctions hcode hl with ⟨f, hf, hf'⟩ | ⟨n, hn, -⟩
    · cases hf'.symm.trans hl'
      exact hname (List.mem_append_right _ (List.mem_map_of_mem hf))
    · rw [Label.name?_of_number? hn] at hl'
      cases hl'

end Program

end WordC
