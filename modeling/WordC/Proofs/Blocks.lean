import Mathlib.Data.List.Forall2
import WordC.Proofs.Listing

/-!
# The blocks of an assembly

An assembly is its data section and, behind the line `.text`, one block of lines for each function of
the program, in order.

* `Function.emit_eq_ok`: a block is the lines of its function; the frame is aligned and nothing in
  the body was in the way.
* `Program.emit_blocks`: the data section and the blocks of a whole program.
-/
namespace WordC

open Asm

/-- What is emitted for a function that can be emitted. -/
theorem Function.emit_eq_ok {used : Nat} {f : Function} {lines : List Line}
    (h : f.emit used = .ok lines) :
    ∃ frame, Word.alignTo f.stackSize 16 = .ok frame ∧ f.body.fault? = none ∧
      lines = f.lines used frame := by
  obtain ⟨frame, hframe, h⟩ := Word.bind_eq_ok_iff.1 h
  split at h
  · cases h
  · rename_i hfault
    exact ⟨frame, hframe, hfault, (Except.ok.inj h).symm⟩

namespace Program

/-- Functions are emitted one block each. -/
theorem emitFunctions_blocks {fs : List Function} : ∀ {used : Nat} {lines : List Line},
    emitFunctions used fs = .ok lines →
    ∃ blocks, lines = blocks.flatten ∧
      List.Forall₂ (fun f block => ∃ used, f.emit used = .ok block) fs blocks := by
  induction fs with
  | nil =>
    intro used lines h
    cases h
    exact ⟨[], rfl, .nil⟩
  | cons f fs ih =>
    intro used lines h
    obtain ⟨first, hfirst, h⟩ := Word.bind_eq_ok_iff.1 h
    obtain ⟨more, hmore, h⟩ := Word.bind_eq_ok_iff.1 h
    obtain ⟨blocks, rfl, hblocks⟩ := ih hmore
    exact ⟨first :: blocks, (Except.ok.inj h).symm, .cons ⟨used, hfirst⟩ hblocks⟩

/-- The parts of an assembly. -/
theorem emit_blocks {p : Program} {asm : Assembly} (h : p.emit = .ok asm) :
    ∃ data blocks, p.emitData = .ok data ∧
      asm.lines = data ++ .directive .text :: blocks.flatten ∧
      List.Forall₂ (fun f block => ∃ used, f.emit used = .ok block) p.functions blocks := by
  obtain ⟨data, hdata, h⟩ := Word.bind_eq_ok_iff.1 h
  obtain ⟨code, hcode, h⟩ := Word.bind_eq_ok_iff.1 h
  obtain ⟨blocks, rfl, hblocks⟩ := emitFunctions_blocks hcode
  cases h
  exact ⟨data, blocks, hdata, rfl, hblocks⟩

/-- Every function of a program stands in its assembly. -/
theorem emit_split {p : Program} {asm : Assembly} {f : Function} (h : p.emit = .ok asm)
    (hf : f ∈ p.functions) :
    ∃ before used block after, f.emit used = .ok block ∧ asm.lines = before ++ block ++ after := by
  obtain ⟨data, blocks, -, hlines, hblocks⟩ := emit_blocks h
  obtain ⟨block, hblock, used, hemit⟩ : ∃ block ∈ blocks, ∃ used, f.emit used = .ok block := by
    clear hlines
    generalize p.functions = fs at hf hblocks
    induction hblocks with
    | nil => cases hf
    | cons hfirst _ ih =>
      rcases List.mem_cons.1 hf with rfl | hf
      · exact ⟨_, List.mem_cons_self, hfirst⟩
      · obtain ⟨block, hblock, hemit⟩ := ih hf
        exact ⟨block, List.mem_cons_of_mem _ hblock, hemit⟩
  obtain ⟨earlier, later, rfl⟩ := List.append_of_mem hblock
  refine ⟨data ++ .directive .text :: earlier.flatten, used, block, later.flatten, hemit, ?_⟩
  simp [hlines]

end Program

end WordC
