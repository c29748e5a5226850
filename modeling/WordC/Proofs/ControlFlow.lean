import WordC.Proofs.Listing
import WordC.Proofs.Machine

/-!
# Control flow of functions

Statements are run in two ways, which agree.

* `Runs`: the structured way. Blocks run in order, a conditional runs one of its branches, a loop
  runs its rounds, and a return ends the function from any depth.
* `Reaches`: the lines of a listing, one after the other, with jumps to the line that is spelled like
  their target.

What a block of expression code does is left open: it changes a state of any kind and leaves a value
in `rax`. Both ways record the blocks they run.

* `Runs.reaches`: what a statement does, its cells do, wherever they stand in a listing without
  doubled labels; a return takes them to the end of the function.
* `Function.reaches_ret`: a function that is entered at its label runs the blocks of its body and
  reaches its `ret` with the stack pointer and the frame base as they were.
-/
namespace WordC

open Asm

variable {S : Type}

/-! ## Running a listing -/

/-- What the lines do that are not control flow. `base` is the base of the frame. -/
structure Effects (S : Type) where
  /-- The block of an expression: the state behind it and its value, if it has one. -/
  act (base : Quad) (e : Expr) (s : S) : Option (S × Quad)
  /-- An argument register is stored in the frame. -/
  spill (base : Quad) (r : Reg) (offset : Int) (s : S) : S

/-- A state, and the last value. -/
structure Point (S : Type) where
  state : S
  rax : Quad

structure Core (S : Type) where
  point : Point S
  rsp : Quad
  rbp : Quad
  /-- The words that were pushed between blocks. -/
  saved : Quad → Quad
  /-- Whether the last comparison found zero. Known only behind a comparison. -/
  zero : Option Bool

namespace Core

/-- The same frame at another point. -/
def on (c : Core S) (pt : Point S) (zero : Option Bool) : Core S := { c with point := pt, zero := zero }

/-- The instructions that stand between blocks, jumps and `ret` apart. -/
def exec (eff : Effects S) (c : Core S) : Instr → Option (Core S)
  | .push .rbp =>
    some { c with rsp := c.rsp - 8#64, saved := Function.update c.saved (c.rsp - 8#64) c.rbp }
  | .pop .rbp => some { c with rsp := c.rsp + 8#64, rbp := c.saved c.rsp }
  | .move .rsp .rbp => some { c with rbp := c.rsp }
  | .move .rbp .rsp => some { c with rsp := c.rbp }
  | .subConst n .rsp => some { c with rsp := c.rsp - BitVec.ofInt 64 n, zero := none }
  | .spill r offset =>
    some { c with point := ⟨eff.spill c.rbp r offset c.point.state, c.point.rax⟩ }
  | .compareZero .rax => some { c with zero := some (c.point.rax == 0#64) }
  | _ => none

end Core

namespace Cell

/-- The listing from the first line on that defines a label with the spelling of `target`. -/
def fromLabel (target : Label) : List Cell → Option (List Cell)
  | [] => none
  | cell :: cells =>
    if cell.label?.map Label.text = some target.text then some (cell :: cells)
    else fromLabel target cells

/-- One step: what is to be run next, the machine behind it, and the block that was run. Nothing
follows on `ret`. -/
def step (eff : Effects S) (prog : List Cell) :
    List Cell → Core S → Option (List Cell × Core S × List Expr)
  | block e :: k, c => do
    let (s, v) ← eff.act c.rbp e c.point.state
    return (k, c.on ⟨s, v⟩ none, [e])
  | line (.instr (.jump target)) :: _, c => do
    return (← fromLabel target prog, c, [])
  | line (.instr (.jumpIfEqual target)) :: k, c => do
    if ← c.zero then return (← fromLabel target prog, c, []) else return (k, c, [])
  | line (.instr i) :: k, c => do
    return (k, ← c.exec eff i, [])
  | line _ :: k, c => some (k, c, [])
  | [], _ => none

end Cell

/-- Some number of steps, and the blocks that they run. -/
inductive Reaches (eff : Effects S) (prog : List Cell) :
    List Cell → Core S → List Expr → List Cell → Core S → Prop where
  | refl (k : List Cell) (c : Core S) : Reaches eff prog k c [] k c
  | head {k k' k'' : List Cell} {c c' c'' : Core S} {es es' : List Expr} :
    Cell.step eff prog k c = some (k', c', es) → Reaches eff prog k' c' es' k'' c'' →
    Reaches eff prog k c (es ++ es') k'' c''

/-! ## Running statements -/

/-- How a statement ends: the next one follows, or the function returns. -/
inductive Ending where
  | fell
  | returned

/-- What can be run: a statement, several of them, or the rounds of a loop. -/
inductive Phrase where
  | stmt (s : Stmt)
  | stmts (ss : List Stmt)
  | rounds (cond step : Option Expr) (body : Stmt)

/-- The evaluation of an expression that may be missing. -/
inductive Evaluates (act : Expr → S → Option (S × Quad)) :
    Option Expr → Point S → List Expr → Point S → Prop where
  | missing (pt : Point S) : Evaluates act none pt [] pt
  | given {e : Expr} {pt : Point S} {s : S} {v : Quad} :
    act e pt.state = some (s, v) → Evaluates act (some e) pt [e] ⟨s, v⟩

/-- Structured execution: the expressions that are evaluated, in their order, how it ends, and where.
Expressions have the given effect and value. -/
inductive Runs (act : Expr → S → Option (S × Quad)) :
    Phrase → Point S → List Expr → Ending → Point S → Prop where
  | eval {e : Option Expr} {pt pt' : Point S} {es : List Expr} :
    Evaluates act e pt es pt' → Runs act (.stmt (.eval e)) pt es .fell pt'
  /-- Without a value, `rax` stays as it is. -/
  | ret {value : Option Expr} {pt pt' : Point S} {es : List Expr} :
    Evaluates act value pt es pt' → Runs act (.stmt (.ret value)) pt es .returned pt'
  | block {ss : List Stmt} {pt pt' : Point S} {es : List Expr} {ending : Ending} :
    Runs act (.stmts ss) pt es ending pt' → Runs act (.stmt (.block ss)) pt es ending pt'
  | nil (pt : Point S) : Runs act (.stmts []) pt [] .fell pt
  | cons {s : Stmt} {ss : List Stmt} {pt pt' pt'' : Point S} {es es' : List Expr} {ending : Ending} :
    Runs act (.stmt s) pt es .fell pt' → Runs act (.stmts ss) pt' es' ending pt'' →
    Runs act (.stmts (s :: ss)) pt (es ++ es') ending pt''
  | leave {s : Stmt} {ss : List Stmt} {pt pt' : Point S} {es : List Expr} :
    Runs act (.stmt s) pt es .returned pt' → Runs act (.stmts (s :: ss)) pt es .returned pt'
  | onTrue {cond : Expr} {s : Stmt} {t : Option Stmt} {pt pt' pt'' : Point S} {es es' : List Expr}
      {ending : Ending} :
    Evaluates act (some cond) pt es pt' → pt'.rax ≠ 0#64 → Runs act (.stmt s) pt' es' ending pt'' →
    Runs act (.stmt (.ite cond s t)) pt (es ++ es') ending pt''
  | onFalse {cond : Expr} {s : Stmt} {t : Option Stmt} {pt pt' pt'' : Point S} {es es' : List Expr}
      {ending : Ending} :
    Evaluates act (some cond) pt es pt' → pt'.rax = 0#64 →
    Runs act (.stmts t.toList) pt' es' ending pt'' →
    Runs act (.stmt (.ite cond s t)) pt (es ++ es') ending pt''
  | loop {init : Option Stmt} {cond step : Option Expr} {body : Stmt} {pt pt' pt'' : Point S}
      {es es' : List Expr} {ending : Ending} :
    Runs act (.stmts init.toList) pt es .fell pt' →
    Runs act (.rounds cond step body) pt' es' ending pt'' →
    Runs act (.stmt (.loop init cond step body)) pt (es ++ es') ending pt''
  | loopLeave {init : Option Stmt} {cond step : Option Expr} {body : Stmt} {pt pt' : Point S}
      {es : List Expr} :
    Runs act (.stmts init.toList) pt es .returned pt' →
    Runs act (.stmt (.loop init cond step body)) pt es .returned pt'
  | done {cond : Expr} {step : Option Expr} {body : Stmt} {pt pt' : Point S} {es : List Expr} :
    Evaluates act (some cond) pt es pt' → pt'.rax = 0#64 →
    Runs act (.rounds (some cond) step body) pt es .fell pt'
  | again {cond step : Option Expr} {body : Stmt} {pt₀ pt₁ pt₂ pt₃ pt₄ : Point S}
      {es₁ es₂ es₃ es₄ : List Expr} {ending : Ending} :
    Evaluates act cond pt₀ es₁ pt₁ → (cond.isSome → pt₁.rax ≠ 0#64) →
    Runs act (.stmt body) pt₁ es₂ .fell pt₂ → Evaluates act step pt₂ es₃ pt₃ →
    Runs act (.rounds cond step body) pt₃ es₄ ending pt₄ →
    Runs act (.rounds cond step body) pt₀ (es₁ ++ (es₂ ++ (es₃ ++ es₄))) ending pt₄
  | leaveRound {cond step : Option Expr} {body : Stmt} {pt₀ pt₁ pt₂ : Point S}
      {es₁ es₂ : List Expr} :
    Evaluates act cond pt₀ es₁ pt₁ → (cond.isSome → pt₁.rax ≠ 0#64) →
    Runs act (.stmt body) pt₁ es₂ .returned pt₂ →
    Runs act (.rounds cond step body) pt₀ (es₁ ++ es₂) .returned pt₂

/-! ## Steps of a listing -/

namespace Reaches

variable {eff : Effects S} {prog k k' k'' : List Cell} {c c' c'' : Core S} {es es' : List Expr}

theorem trans (h : Reaches eff prog k c es k' c') (h' : Reaches eff prog k' c' es' k'' c'') :
    Reaches eff prog k c (es ++ es') k'' c'' := by
  induction h with
  | refl => exact h'
  | head hstep _ ih => rw [List.append_assoc]; exact .head hstep (ih h')

theorem single (h : Cell.step eff prog k c = some (k', c', es)) :
    Reaches eff prog k c es k' c' := by
  simpa using Reaches.head h (.refl k' c')

/-- Steps that run no block. -/
theorem silent (h : Reaches eff prog k c es k' c') (h' : Reaches eff prog k' c' [] k'' c'') :
    Reaches eff prog k c es k'' c'' := by
  simpa using h.trans h'

theorem label (l : Label) (k : List Cell) (c : Core S) :
    Reaches eff prog (.line (.label l) :: k) c [] k c := single rfl

theorem instr {i : Instr} (h : Cell.step eff prog (.line (.instr i) :: k) c = some (k, c', [])) :
    Reaches eff prog (.line (.instr i) :: k) c [] k c' := single h

theorem jump {l : Label} (hl : Cell.fromLabel l prog = some k') :
    Reaches eff prog (.line (.instr (.jump l)) :: k) c [] k' c := by
  refine single ?_
  simp [Cell.step, hl]

/-- Where the test of a value goes. -/
theorem branchZero {l : Label} {pt : Point S} {z : Option Bool}
    (hl : Cell.fromLabel l prog = some k') :
    Reaches eff prog (.line (.instr (.compareZero .rax)) :: .line (.instr (.jumpIfEqual l)) :: k)
      (c.on pt z) [] (if pt.rax = 0#64 then k' else k) (c.on pt (some (pt.rax == 0#64))) := by
  have hcompare : Reaches eff prog
      (.line (.instr (.compareZero .rax)) :: .line (.instr (.jumpIfEqual l)) :: k) (c.on pt z) []
      (.line (.instr (.jumpIfEqual l)) :: k) (c.on pt (some (pt.rax == 0#64))) := single rfl
  refine hcompare.trans (single ?_)
  by_cases h : pt.rax = 0#64
  · simp [Cell.step, Core.on, h, hl]
  · simp [Cell.step, Core.on, h]

end Reaches

namespace Cell

/-- A label that is spelled like no other one is found where it stands. -/
theorem fromLabel_of_suffix {prog k : List Cell} {l : Label}
    (hprog : ((labels prog).map Label.text).Nodup) (h : line (.label l) :: k <:+ prog) :
    fromLabel l prog = some (line (.label l) :: k) := by
  obtain ⟨before, rfl⟩ := h
  induction before with
  | nil => simp [fromLabel, label?]
  | cons cell before ih =>
    simp only [List.cons_append, labels, List.filterMap_cons] at hprog ih ⊢
    cases hcell : cell.label? with
    | none =>
      rw [hcell] at hprog
      simpa [fromLabel, hcell] using ih hprog
    | some l' =>
      rw [hcell] at hprog
      obtain ⟨hl', hprog⟩ := List.nodup_cons.1 hprog
      have hne : l'.text ≠ l.text := by
        intro heq
        apply hl'
        rw [heq]
        exact List.mem_map_of_mem (by simp [label?])
      simpa [fromLabel, hcell, hne] using ih hprog

end Cell

/-! ## Statements and their cells -/

namespace Stmt

variable (f : String) (used : Nat) (k : List Cell)

/-- The cells of a statement in front of `k`. -/
def cells (s : Stmt) : List Cell := (s.flow f used).flatMap Flow.cells ++ k

def cellsAll (ss : List Stmt) : List Cell := (flowAll f used ss).flatMap Flow.cells ++ k

/-- The cells of the rounds of a loop with the number `n`, in front of `k`. -/
def roundsCells (n : Nat) (cond step : Option Expr) (body : Stmt) : List Cell :=
  .line (.label (.begin n)) :: ((Flow.testOption (.done n) cond).flatMap Flow.cells ++
    body.cells f used ((Flow.evalOption step).flatMap Flow.cells ++
      .line (.instr (.jump (.begin n))) :: .line (.label (.done n)) :: k))

theorem cells_ret (value : Option Expr) :
    (ret value).cells f used k =
      (Flow.evalOption value).flatMap Flow.cells ++ .line (.instr (.jump (.leave f))) :: k := by
  simp [cells, flow, Flow.cells, Cell.instrs]

theorem cellsAll_cons (s : Stmt) (ss : List Stmt) :
    cellsAll f used k (s :: ss) = s.cells f used (cellsAll f (used + s.labels) k ss) := by
  simp [cells, cellsAll, flowAll]

theorem cells_ite (cond : Expr) (s : Stmt) (t : Option Stmt) :
    (ite cond s t).cells f used k =
      .block cond :: .line (.instr (.compareZero .rax)) ::
      .line (.instr (.jumpIfEqual (.orElse (used + 1)))) ::
      s.cells f (used + 1) (.line (.instr (.jump (.done (used + 1)))) ::
        .line (.label (.orElse (used + 1))) ::
        cellsAll f (used + 1 + s.labels) (.line (.label (.done (used + 1))) :: k) t.toList) := by
  cases t <;> simp [cells, cellsAll, flow, flowAll, Flow.cells, Cell.instrs]

theorem cells_loop (init : Option Stmt) (cond step : Option Expr) (body : Stmt) :
    (loop init cond step body).cells f used k =
      cellsAll f (used + 1)
        (roundsCells f (used + 1 + labelsAll init.toList) k (used + 1) cond step body)
        init.toList := by
  cases init <;>
    simp [cells, cellsAll, roundsCells, flow, flowAll, labelsAll, Flow.cells, Cell.instrs]

variable {f used k}

theorem suffix_cells (s : Stmt) : k <:+ s.cells f used k := List.suffix_append _ _

theorem suffix_cellsAll (ss : List Stmt) : k <:+ cellsAll f used k ss := List.suffix_append _ _

theorem suffix_body {n : Nat} {cond step : Option Expr} {body : Stmt} :
    body.cells f used ((Flow.evalOption step).flatMap Flow.cells ++
      .line (.instr (.jump (.begin n))) :: .line (.label (.done n)) :: k) <:+
    roundsCells f used k n cond step body :=
  (List.suffix_append _ _).trans (List.suffix_cons _ _)

/-- Where a loop is left. -/
theorem fromLabel_done {prog : List Cell} {n : Nat} {cond step : Option Expr} {body : Stmt}
    (hprog : ((Cell.labels prog).map Label.text).Nodup)
    (hcode : roundsCells f used k n cond step body <:+ prog) :
    Cell.fromLabel (.done n) prog = some (.line (.label (.done n)) :: k) := by
  have hend := (suffix_cells body).trans (suffix_body.trans hcode)
  have hjump := (List.suffix_append _ _).trans hend
  exact Cell.fromLabel_of_suffix hprog ((List.suffix_cons _ _).trans hjump)

end Stmt

/-- The cells are those of the phrase in front of `k`, with some numbers for its labels. -/
def Phrase.Coded (f : String) (k : List Cell) : Phrase → List Cell → Prop
  | stmt s, code => ∃ used, code = s.cells f used k
  | stmts ss, code => ∃ used, code = Stmt.cellsAll f used k ss
  | rounds cond step body, code => ∃ n used, code = Stmt.roundsCells f used k n cond step body

/-- Where a phrase leads that stands in front of `k`. -/
def Ending.leads (k leave : List Cell) : Ending → List Cell
  | fell => k
  | returned => leave

theorem Ending.leads_self (k : List Cell) (ending : Ending) : ending.leads k k = k := by
  cases ending <;> rfl

section

variable {eff : Effects S} {prog k : List Cell} {c : Core S} {pt pt' : Point S} {es : List Expr}

theorem Evaluates.reaches {e : Option Expr} (h : Evaluates (eff.act c.rbp) e pt es pt')
    (prog : List Cell) (z : Option Bool) :
    ∃ z', Reaches eff prog ((Flow.evalOption e).flatMap Flow.cells ++ k) (c.on pt z) es k
      (c.on pt' z') := by
  cases h with
  | missing => exact ⟨z, .refl _ _⟩
  | given h =>
    refine ⟨none, .single ?_⟩
    simp [Flow.evalOption, Flow.cells, Cell.step, Core.on, h]

/-- A test goes to the label if its value is zero. -/
theorem Evaluates.reaches_branch {cond : Expr} {l : Label} {after : List Cell}
    (h : Evaluates (eff.act c.rbp) (some cond) pt es pt')
    (hl : Cell.fromLabel l prog = some after) (z : Option Bool) :
    ∃ z', Reaches eff prog (.block cond :: .line (.instr (.compareZero .rax)) ::
        .line (.instr (.jumpIfEqual l)) :: k) (c.on pt z) es
      (if pt'.rax = 0#64 then after else k) (c.on pt' z') := by
  obtain ⟨z', hcond⟩ := h.reaches prog z
  exact ⟨some (pt'.rax == 0#64), hcond.silent (.branchZero hl)⟩

/-- The test of a loop goes on if the condition is missing or not zero. -/
theorem Evaluates.reaches_test {cond : Option Expr} {l : Label} {after : List Cell}
    (h : Evaluates (eff.act c.rbp) cond pt es pt') (hl : Cell.fromLabel l prog = some after)
    (hne : cond.isSome → pt'.rax ≠ 0#64) (z : Option Bool) :
    ∃ z', Reaches eff prog ((Flow.testOption l cond).flatMap Flow.cells ++ k) (c.on pt z) es k
      (c.on pt' z') := by
  cases cond with
  | none =>
    cases h
    exact ⟨z, .refl _ _⟩
  | some cond =>
    obtain ⟨z', hcond⟩ := h.reaches_branch (k := k) hl z
    rw [if_neg (hne rfl)] at hcond
    exact ⟨z', hcond⟩

/-- The cells of a phrase do what the phrase does. -/
theorem Runs.reaches {f : String} {ph : Phrase} {ending : Ending} {leave : List Cell}
    (hprog : ((Cell.labels prog).map Label.text).Nodup)
    (hleave : Cell.fromLabel (.leave f) prog = some leave)
    (h : Runs (eff.act c.rbp) ph pt es ending pt') :
    ∀ {code k : List Cell}, ph.Coded f k code → code <:+ prog →
    ∀ z, ∃ z', Reaches eff prog code (c.on pt z) es (ending.leads k leave) (c.on pt' z') := by
  induction h with
  | eval he =>
    rintro _ k ⟨used, rfl⟩ - z
    exact he.reaches prog z
  | ret he =>
    rintro _ k ⟨used, rfl⟩ - z
    obtain ⟨z', hz'⟩ := he.reaches prog z
    rw [Stmt.cells_ret]
    exact ⟨z', hz'.silent (.jump hleave)⟩
  | block _ ih =>
    rintro _ k ⟨used, rfl⟩ hcode z
    exact ih ⟨used, rfl⟩ hcode z
  | nil =>
    rintro _ k ⟨used, rfl⟩ - z
    exact ⟨z, .refl _ _⟩
  | cons _ _ ih ih' =>
    rintro _ k ⟨used, rfl⟩ hcode z
    rw [Stmt.cellsAll_cons] at hcode ⊢
    obtain ⟨z₁, h₁⟩ := ih ⟨used, rfl⟩ hcode z
    obtain ⟨z₂, h₂⟩ := ih' ⟨_, rfl⟩ ((Stmt.suffix_cells _).trans hcode) z₁
    exact ⟨z₂, h₁.trans h₂⟩
  | leave _ ih =>
    rintro _ k ⟨used, rfl⟩ hcode z
    rw [Stmt.cellsAll_cons] at hcode ⊢
    exact ih ⟨used, rfl⟩ hcode z
  | @onTrue cond s t _ pt₁ _ _ _ ending hc hne _ ih =>
    rintro _ k ⟨used, rfl⟩ hcode z
    rw [Stmt.cells_ite] at hcode ⊢
    have htrue := (List.suffix_append [_, _, _] _).trans hcode
    have hjump := (Stmt.suffix_cells _).trans htrue
    have helse := Cell.fromLabel_of_suffix hprog ((List.suffix_cons _ _).trans hjump)
    have hdone := (Stmt.suffix_cellsAll _).trans ((List.suffix_append [_, _] _).trans hjump)
    obtain ⟨z₁, h₁⟩ := hc.reaches_branch helse z
    rw [if_neg hne] at h₁
    obtain ⟨z₂, h₂⟩ := ih ⟨_, rfl⟩ htrue z₁
    refine ⟨z₂, h₁.trans ?_⟩
    cases ending with
    | fell => exact (h₂.silent (.jump (Cell.fromLabel_of_suffix hprog hdone))).silent (.label _ _ _)
    | returned => exact h₂
  | @onFalse cond s t _ pt₁ _ _ _ ending hc heq _ ih =>
    rintro _ k ⟨used, rfl⟩ hcode z
    rw [Stmt.cells_ite] at hcode ⊢
    have hjump := (Stmt.suffix_cells s).trans ((List.suffix_append [_, _, _] _).trans hcode)
    have helse := Cell.fromLabel_of_suffix hprog ((List.suffix_cons _ _).trans hjump)
    obtain ⟨z₁, h₁⟩ := hc.reaches_branch helse z
    rw [if_pos heq] at h₁
    obtain ⟨z₂, h₂⟩ := ih ⟨_, rfl⟩ ((List.suffix_append [_, _] _).trans hjump) z₁
    refine ⟨z₂, (h₁.silent (.label _ _ _)).trans ?_⟩
    cases ending with
    | fell => exact h₂.silent (.label _ _ _)
    | returned => exact h₂
  | loop _ _ ih ih' =>
    rintro _ k ⟨used, rfl⟩ hcode z
    rw [Stmt.cells_loop] at hcode ⊢
    obtain ⟨z₁, h₁⟩ := ih ⟨_, rfl⟩ hcode z
    obtain ⟨z₂, h₂⟩ := ih' ⟨_, _, rfl⟩ ((Stmt.suffix_cellsAll _).trans hcode) z₁
    exact ⟨z₂, h₁.trans h₂⟩
  | loopLeave _ ih =>
    rintro _ k ⟨used, rfl⟩ hcode z
    rw [Stmt.cells_loop] at hcode ⊢
    exact ih ⟨_, rfl⟩ hcode z
  | done hc heq =>
    rintro _ k ⟨n, used, rfl⟩ hcode z
    obtain ⟨z', h'⟩ := hc.reaches_branch (Stmt.fromLabel_done hprog hcode) z
    rw [if_pos heq] at h'
    exact ⟨z', ((Reaches.label _ _ _).trans h').silent (.label _ _ _)⟩
  | again hc hne _ hstep _ ih ih' =>
    rintro _ k ⟨n, used, rfl⟩ hcode z
    obtain ⟨z₁, h₁⟩ := hc.reaches_test (Stmt.fromLabel_done hprog hcode) hne z
    obtain ⟨z₂, h₂⟩ := ih ⟨used, rfl⟩ (Stmt.suffix_body.trans hcode) z₁
    obtain ⟨z₃, h₃⟩ := hstep.reaches prog z₂
    obtain ⟨z₄, h₄⟩ := ih' ⟨n, used, rfl⟩ hcode z₃
    have hbegin := Cell.fromLabel_of_suffix hprog hcode
    exact ⟨z₄, (Reaches.label _ _ _).trans
      (h₁.trans (h₂.trans (h₃.trans ((Reaches.jump hbegin).trans h₄))))⟩
  | leaveRound hc hne _ ih =>
    rintro _ k ⟨n, used, rfl⟩ hcode z
    obtain ⟨z₁, h₁⟩ := hc.reaches_test (Stmt.fromLabel_done hprog hcode) hne z
    obtain ⟨z₂, h₂⟩ := ih ⟨used, rfl⟩ (Stmt.suffix_body.trans hcode) z₁
    exact ⟨z₂, (Reaches.label _ _ _).trans (h₁.trans h₂)⟩

end

/-! ## Functions -/

namespace Function

section

variable {eff : Effects S} {prog k : List Cell}

/-- The state in which the body starts: the parameters are in their places. -/
def spilled (eff : Effects S) (base : Quad) (f : Function) (s : S) : S :=
  (f.params.zip argRegs).foldl (fun s (v, r) => eff.spill base r v.offset s) s

theorem reaches_spills (f : Function) (c : Core S) :
    Reaches eff prog (Cell.instrs (spills f.params) ++ k) c [] k
      { c with point := ⟨f.spilled eff c.rbp c.point.state, c.point.rax⟩ } := by
  unfold spills spilled
  induction f.params.zip argRegs generalizing c with
  | nil => exact .refl _ _
  | cons first more ih =>
    obtain ⟨v, r⟩ := first
    exact (Reaches.instr rfl).trans
      (ih { c with point := ⟨eff.spill c.rbp r v.offset c.point.state, c.point.rax⟩ })

/-- The new frame is based one word below the old top of the stack, where the old base is kept. -/
theorem reaches_prologue (eff : Effects S) (prog : List Cell) (frame : Int) (c : Core S) :
    ∃ c', Reaches eff prog (Cell.instrs (prologue frame) ++ k) c [] k c' ∧
      c'.point = c.point ∧ c'.rbp = c.rsp - 8#64 ∧
      c'.saved = Function.update c.saved (c.rsp - 8#64) c.rbp := by
  let c₁ : Core S :=
    { c with
      rsp := c.rsp - 8#64
      rbp := c.rsp - 8#64
      saved := Function.update c.saved (c.rsp - 8#64) c.rbp }
  have hlink (k : List Cell) : Reaches eff prog
      (Cell.instrs [.push .rbp, .move .rsp .rbp] ++ k) c [] k c₁ :=
    (Reaches.instr rfl).trans (.instr rfl)
  unfold prologue
  split
  · let c₂ : Core S := { c₁ with rsp := c₁.rsp - BitVec.ofInt 64 frame, zero := none }
    have hroom : Reaches eff prog (.line (.instr (.subConst frame .rsp)) :: k) c₁ [] k c₂ :=
      .instr rfl
    exact ⟨c₂, (hlink _).trans hroom, rfl, rfl, rfl⟩
  · exact ⟨c₁, hlink k, rfl, rfl, rfl⟩

theorem reaches_epilogue (c : Core S) :
    Reaches eff prog (Cell.instrs epilogue ++ k) c [] (.line (.instr .ret) :: k)
      { c with rsp := c.rbp + 8#64, rbp := c.saved c.rbp } :=
  (Reaches.instr rfl).trans (.instr rfl)

end

/-- Wherever a function stands in its program, entering it at its label runs the blocks of its body
as the body runs them, and reaches its own `ret`. -/
theorem reaches_ret {p : Program} {asm : Assembly} {f : Function} {eff : Effects S} {c : Core S}
    {es : List Expr} {ending : Ending} {pt : Point S}
    (hemit : p.emit = .ok asm) (hnames : (p.objects.map Object.name).Nodup)
    (hident : ∀ o ∈ p.objects, isIdentifier o.name) (hf : f ∈ p.functions)
    (hrun : Runs (eff.act (c.rsp - 8#64)) (.stmt f.body)
      ⟨f.spilled eff (c.rsp - 8#64) c.point.state, c.point.rax⟩ es ending pt) :
    ∃ prog before used frame after start c',
      p.listing = .ok prog ∧ asm.lines = prog.flatMap Cell.lines ∧
      prog = before ++ f.cells used frame ++ after ∧
      Cell.fromLabel (.symbol f.name) prog = some start ∧
      Reaches eff prog start c es (.line (.instr .ret) :: after) c' ∧
      c'.point = pt ∧ c'.rsp = c.rsp ∧ c'.rbp = c.rbp := by
  rw [p.emit_eq_listing] at hemit
  cases hlisting : p.listing with
  | error fault => rw [hlisting] at hemit; cases hemit
  | ok prog =>
    rw [hlisting] at hemit
    cases hemit
    have hprog : ((Cell.labels prog).map Label.text).Nodup :=
      (Program.nodup_labels hlisting hnames).map_on fun l hl l' hl' =>
        Label.text_inj (Program.proper_labels hlisting hident l hl)
          (Program.proper_labels hlisting hident l' hl')
    obtain ⟨before, used, frame, after, hsplit⟩ := Program.listing_split hlisting hf
    -- The function from its label on, with what is behind it.
    have hcode : .line (.label (.symbol f.name)) :: (Cell.instrs (prologue frame) ++
        (Cell.instrs (spills f.params) ++ f.body.cells f.name used
          (.line (.label (.leave f.name)) :: (Cell.instrs epilogue ++ after)))) <:+ prog := by
      refine ⟨before ++ [.line (.directive (.global f.name))], ?_⟩
      simp [hsplit, cells, bodyCells, Stmt.cells, Cell.instrs]
    have hbody := (List.suffix_append _ _).trans ((List.suffix_append _ _).trans
      ((List.suffix_cons _ _).trans hcode))
    have hleave := Cell.fromLabel_of_suffix hprog ((Stmt.suffix_cells _).trans hbody)
    obtain ⟨c₁, hc₁, hpoint, hbase, hsaved⟩ := reaches_prologue eff prog frame c
    rw [← hbase, ← hpoint] at hrun
    obtain ⟨z, hz⟩ := hrun.reaches hprog hleave ⟨used, rfl⟩ hbody c₁.zero
    rw [Ending.leads_self] at hz
    have hrun' := (Reaches.label (.symbol f.name) _ _).trans (hc₁.trans ((f.reaches_spills c₁).trans
      (hz.silent ((Reaches.label _ _ _).trans (reaches_epilogue _)))))
    refine ⟨prog, before, used, frame, after, _, _, rfl, rfl, hsplit,
      Cell.fromLabel_of_suffix hprog hcode, hrun', rfl, ?_, ?_⟩
    · simp [Core.on, hbase, BitVec.sub_add_cancel]
    · simp [Core.on, hbase, hsaved]

/-- The parameter `n` of the function below. -/
def countdownArg : Expr := .var (.frame ⟨"n", .int, -8⟩) .int .nowhere

/-- `n = n - 1`. -/
def countdownStep : Expr :=
  .assign countdownArg (.binary .sub countdownArg (.num 1 .int .nowhere) .int .nowhere) .int .nowhere

/-- `int countdown(int n) { for (; n;) if (n) n = n - 1; return 7; }`. -/
def countdown : Function where
  name := "countdown"
  params := [⟨"n", .int, -8⟩]
  ty := .func .int
  locals := [⟨"n", .int, -8⟩]
  body := .block [
    .loop none (some countdownArg) none (.ite countdownArg (.eval (some countdownStep)) none),
    .ret (some (.num 7 .int .nowhere))]
  stackSize := 8

/-- The value of `n` is the whole state. -/
def countdownEffects : Effects Nat where
  act _ e n :=
    match e with
    | .num value _ _ => some (n, BitVec.ofInt 64 value)
    | .var _ _ _ => some (n, BitVec.ofNat 64 n)
    | _ => some (n - 1, BitVec.ofNat 64 (n - 1))
  spill _ _ _ n := n

theorem countdown_reaches_ret :
    ∃ asm prog before used frame after start c',
      Program.emit ⟨[.function countdown]⟩ = .ok asm ∧
      Program.listing ⟨[.function countdown]⟩ = .ok prog ∧ asm.lines = prog.flatMap Cell.lines ∧
      prog = before ++ countdown.cells used frame ++ after ∧
      Cell.fromLabel (.symbol "countdown") prog = some start ∧
      Reaches countdownEffects prog start ⟨⟨1, 0#64⟩, 0x2000#64, 0x3000#64, fun _ => 0#64, none⟩
        [countdownArg, countdownArg, countdownStep, countdownArg, .num 7 .int .nowhere]
        (.line (.instr .ret) :: after) c' ∧
      c'.point = ⟨0, 7#64⟩ ∧ c'.rsp = 0x2000#64 ∧ c'.rbp = 0x3000#64 := by
  have hbody : Runs (countdownEffects.act (0x2000#64 - 8#64))
      (.stmt (.ite countdownArg (.eval (some countdownStep)) none)) ⟨1, 1#64⟩
      [countdownArg, countdownStep] .fell ⟨0, 0#64⟩ :=
    .onTrue (.given rfl) (by decide) (.eval (.given rfl))
  have hrounds : Runs (countdownEffects.act (0x2000#64 - 8#64))
      (.rounds (some countdownArg) none (.ite countdownArg (.eval (some countdownStep)) none))
      ⟨1, 0#64⟩ [countdownArg, countdownArg, countdownStep, countdownArg] .fell ⟨0, 0#64⟩ :=
    .again (.given rfl) (by decide) hbody (.missing _) (.done (.given rfl) rfl)
  have hinit : Runs (countdownEffects.act (0x2000#64 - 8#64)) (.stmts (none : Option Stmt).toList)
      ⟨1, 0#64⟩ [] .fell ⟨1, 0#64⟩ := .nil _
  have hret : Runs (countdownEffects.act (0x2000#64 - 8#64))
      (.stmts [.ret (some (.num 7 .int .nowhere))]) ⟨0, 0#64⟩ [.num 7 .int .nowhere] .returned
      ⟨0, 7#64⟩ := .leave (.ret (.given rfl))
  have hrun : Runs (countdownEffects.act (0x2000#64 - 8#64)) (.stmt countdown.body) ⟨1, 0#64⟩
      [countdownArg, countdownArg, countdownStep, countdownArg, .num 7 .int .nowhere]
      .returned ⟨0, 7#64⟩ := .block (.cons (hinit.loop hrounds :) hret)
  obtain ⟨prog, before, used, frame, after, start, c', h⟩ :=
    reaches_ret (p := ⟨[.function countdown]⟩) (f := countdown)
      (c := ⟨⟨1, 0#64⟩, 0x2000#64, 0x3000#64, fun _ => 0#64, none⟩)
      rfl (by decide) (by decide) List.mem_cons_self hrun
  exact ⟨_, prog, before, used, frame, after, start, c', rfl, h⟩

end Function

end WordC
