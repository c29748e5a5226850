import Mathlib.Data.List.Nodup
import WordC.Emit.Expression
import WordC.Proofs.Evaluation
import WordC.Proofs.Tree

/-!
# The code of an expression computes its value

The code is run on the machine beside the evaluator. What carries the proof through nested operands,
assignments and calls is `World.Kept`: a piece of code that leaves its value in `rax` puts the stack
pointer back, does not move the frame base and changes no operand that was waiting when it started.

* `Kept.bracket`: pushing a word, running code that is kept and popping gives the word back.
* `run_instrs`, `run_pops`, `run_callInstrs`: what the code of an operator, the pops of the arguments
  and the call do.
* `World.Follows`, `Follows.bind`: code that follows an evaluation, and how such code is joined.
* `Expr.follows_code`: the code of every emittable expression follows its evaluation.
* `Expr.run_code_yields`: hence it ends with a value and a memory that the expression yields.
-/
namespace WordC

open Asm

/-! ## The stack -/

namespace World

variable (W : World)

/-- `σ'` has the stack pointer, the frame base and the waiting operands of `σ`. -/
structure Kept (σ σ' : Machine) : Prop where
  rsp : σ'.regs .rsp = σ.regs .rsp
  rbp : σ'.regs .rbp = σ.regs .rbp
  waits : ∀ a, W.Waits σ a → σ'.mem a = σ.mem a

variable {W} {σ σ' σ'' : Machine}

theorem Kept.of_mem_eq (hsp : σ'.regs .rsp = σ.regs .rsp) (hbp : σ'.regs .rbp = σ.regs .rbp)
    (hmem : σ'.mem = σ.mem) : W.Kept σ σ' := ⟨hsp, hbp, fun a _ => by rw [hmem]⟩

theorem Kept.trans (h : W.Kept σ σ') (h' : W.Kept σ' σ'') : W.Kept σ σ'' where
  rsp := h'.rsp.trans h.rsp
  rbp := h'.rbp.trans h.rbp
  waits a ha := by
    have ha' : W.Waits σ' a := by unfold Waits at *; rw [h.rsp]; exact ha
    rw [h'.waits a ha', h.waits a ha]

theorem below_sub_eight {a : Quad} (h : W.below a + 8 < 0x10000000000000000) :
    W.below (a - 8#64) = W.below a + 8 := by
  unfold below at *
  bv_omega

/-- No word of the program lies in the stack, so writing there changes none. -/
theorem view_update {mem : Quad → Quad} {a v : Quad} (h0 : 0 < W.below a)
    (hr : W.below a ≤ W.reserve) : W.view (Function.update mem a v) = W.view mem := by
  funext b
  have hne : b.1 ≠ a := by
    intro hb
    have := W.own_apart b.1 b.2
    rw [hb] at this
    unfold below at *
    omega
  exact Function.update_of_ne hne _ _

/-- A word that waits is not the program's own. -/
theorem not_own_of_waits {a : Quad} (hroom : W.below (σ.regs .rsp) ≤ W.reserve)
    (h : W.Waits σ a) : ¬ W.own a := by
  intro ha
  have := W.own_apart a ha
  unfold Waits below at *
  omega

theorem view_write {mem : Quad → Quad} {a v : Quad} (h : W.own a) :
    W.view (Function.update mem a v) = Function.update (W.view mem) ⟨a, h⟩ v := by
  funext b
  by_cases hb : b = ⟨a, h⟩
  · subst hb
    simp [view]
  · rw [Function.update_of_ne hb]
    exact Function.update_of_ne (fun h => hb (Subtype.ext h)) _ _

theorem Kept.write {a v : Quad} (hroom : W.below (σ.regs .rsp) ≤ W.reserve) (h : W.own a) :
    W.Kept σ (σ.write a v) := by
  refine ⟨rfl, rfl, fun b hb => ?_⟩
  rw [Machine.write_mem, Function.update_of_ne]
  rintro rfl
  exact not_own_of_waits hroom hb h

theorem push_rsp (σ : Machine) (v : Quad) : (σ.push v).regs .rsp = σ.regs .rsp - 8#64 := by
  simp [Machine.push]

theorem push_regs (σ : Machine) (v : Quad) {r : Reg} (hr : r ≠ .rsp) :
    (σ.push v).regs r = σ.regs r := by
  simp [Machine.push, hr]

theorem push_mem (σ : Machine) (v : Quad) :
    (σ.push v).mem = Function.update σ.mem (σ.regs .rsp - 8#64) v := by
  simp [Machine.push]

theorem below_push {v : Quad} (hroom : W.below (σ.regs .rsp) + 8 ≤ W.reserve) :
    W.below ((σ.push v).regs .rsp) = W.below (σ.regs .rsp) + 8 := by
  have := W.reserve_lt
  rw [push_rsp, below_sub_eight (by omega)]

theorem view_push {v : Quad} (hroom : W.below (σ.regs .rsp) + 8 ≤ W.reserve) :
    W.view (σ.push v).mem = W.view σ.mem := by
  have hb := W.below_push (v := v) hroom
  rw [push_rsp] at hb
  rw [push_mem, W.view_update (by omega) (by omega)]

/-- Operands that wait are not touched by a push, and the pushed word is one more. -/
theorem waits_push {v a : Quad} (hroom : W.below (σ.regs .rsp) + 8 ≤ W.reserve)
    (ha : W.Waits σ a) : W.Waits (σ.push v) a ∧ (σ.push v).mem a = σ.mem a := by
  have hb := W.below_push (v := v) hroom
  obtain ⟨h0, h1⟩ := ha
  refine ⟨⟨h0, by omega⟩, ?_⟩
  rw [push_rsp] at hb
  rw [push_mem, Function.update_of_ne]
  rintro rfl
  omega

/-- Code between a push and a pop that keeps its stack: the pushed word comes back, and everything
is kept that was kept before. -/
theorem Kept.bracket {v : Quad} {r : Reg} (hroom : W.below (σ.regs .rsp) + 8 ≤ W.reserve)
    (h : W.Kept (σ.push v) σ') (hsp : r ≠ .rsp) (hbp : r ≠ .rbp) :
    W.Kept σ (σ'.pop r) ∧ (σ'.pop r).regs r = v := by
  have hb := W.below_push (v := v) hroom
  have hv : σ'.mem (σ'.regs .rsp) = v := by
    rw [h.rsp, h.waits _ ⟨by omega, Nat.le_refl _⟩, push_rsp, push_mem, Function.update_self]
  refine ⟨⟨?_, ?_, ?_⟩, ?_⟩
  · simp [Machine.pop, hsp.symm, h.rsp, push_rsp, BitVec.sub_add_cancel]
  · simp [Machine.pop, hbp.symm, h.rbp, push_regs]
  · intro a ha
    obtain ⟨ha', hm⟩ := waits_push (v := v) hroom ha
    rw [Machine.pop_mem, h.waits a ha', hm]
  · simp [Machine.pop, hv]

end World

/-! ## Operators -/

/-- The code of an operator computes its result, if there is one, and touches nothing but
registers. -/
theorem BinaryOp.run_instrs (W : World) (op : BinaryOp) {σ : Machine} {v : Quad}
    (h : op.apply (σ.regs .rax) (σ.regs .rdi) = some v) :
    ∃ σ', W.run op.instrs σ = some σ' ∧ σ'.regs .rax = v ∧ σ'.mem = σ.mem ∧
      σ'.regs .rsp = σ.regs .rsp ∧ σ'.regs .rbp = σ.regs .rbp := by
  have hcmp (c : Condition) : ∃ σ', W.run [.compare .rdi .rax, .set c, .widen] σ = some σ' ∧
      σ'.regs .rax = Quad.ofBool (c.test (σ.regs .rax) (σ.regs .rdi)) ∧ σ'.mem = σ.mem ∧
      σ'.regs .rsp = σ.regs .rsp ∧ σ'.regs .rbp = σ.regs .rbp := by
    refine ⟨_, rfl, ?_, rfl, rfl, rfl⟩
    rw [Machine.widen_setByte, Condition.holds_compare, Quad.ofBool]
  cases op with
  | add => cases h; exact ⟨_, rfl, by simp, rfl, rfl, rfl⟩
  | sub => cases h; exact ⟨_, rfl, by simp, rfl, rfl, rfl⟩
  | mul => cases h; exact ⟨_, rfl, by simp, rfl, rfl, rfl⟩
  | div =>
    simp only [apply] at h
    split at h
    · cases h
    · rename_i hdef
      cases h
      obtain ⟨h0, hov⟩ := not_or.1 hdef
      obtain ⟨r, hr⟩ := Machine.divide_extend h0 hov
      refine ⟨(σ.extend.compute .rax ((σ.regs .rax).sdiv (σ.regs .rdi))).set .rdx r, ?_, ?_, rfl,
        rfl, rfl⟩
      · show (σ.extend.divide (σ.regs .rdi)).bind (W.run []) = _
        rw [hr]
        rfl
      · simp
  | eq => cases h; exact hcmp .equal
  | ne => cases h; exact hcmp .notEqual
  | lt => cases h; exact hcmp .less
  | le => cases h; exact hcmp .lessEqual

/-! ## Calls -/

namespace Machine

theorem ofNat_slot (n : Nat) :
    BitVec.ofNat 64 (8 * (n + 1)) = 8#64 + BitVec.ofNat 64 (8 * n) := by
  rw [Nat.mul_succ, BitVec.ofNat_add, BitVec.add_comm]

/-- The topmost words of the stack, the last one pushed first. -/
def topWords (σ : Machine) (n : Nat) : List Quad :=
  (List.range n).map fun i => σ.mem (σ.regs .rsp + BitVec.ofNat 64 (8 * i))

theorem topWords_succ (σ : Machine) (n : Nat) :
    σ.topWords (n + 1) = σ.topWords n ++ [σ.mem (σ.regs .rsp + BitVec.ofNat 64 (8 * n))] := by
  simp [topWords, List.range_succ]

theorem topWords_pop (σ : Machine) (n : Nat) {r : Reg} (hr : r ≠ .rsp) :
    σ.topWords (n + 1) = σ.mem (σ.regs .rsp) :: (σ.pop r).topWords n := by
  unfold topWords
  rw [List.range_succ_eq_map, List.map_cons, List.map_map]
  congr 1
  · simp
  · refine List.map_congr_left fun i _ => ?_
    have hsp : (σ.pop r).regs .rsp = σ.regs .rsp + 8#64 := by simp [pop, hr.symm]
    rw [hsp, pop_mem, BitVec.add_assoc, ← ofNat_slot]
    rfl

end Machine

/-- Pops into different registers fill them from the top of the stack. -/
theorem World.run_pops (W : World) : ∀ (rs : List Reg) (σ : Machine), rs.Nodup → .rsp ∉ rs →
    ∃ σ', W.run (rs.map .pop) σ = some σ' ∧ σ'.mem = σ.mem ∧
      σ'.regs .rsp = σ.regs .rsp + BitVec.ofNat 64 (8 * rs.length) ∧
      rs.map σ'.regs = σ.topWords rs.length ∧
      ∀ r, r ∉ rs → r ≠ .rsp → σ'.regs r = σ.regs r
  | [], σ, _, _ => ⟨σ, rfl, rfl, by simp, rfl, fun _ _ _ => rfl⟩
  | r :: rs, σ, hnd, hsp => by
    obtain ⟨hr, hnd⟩ := List.nodup_cons.1 hnd
    obtain ⟨hne, hsp⟩ := not_or.1 (mt List.mem_cons.2 hsp)
    obtain ⟨σ', hrun, hmem, hrsp, hwords, hother⟩ := W.run_pops rs (σ.pop r) hnd hsp
    have hpop : (σ.pop r).regs .rsp = σ.regs .rsp + 8#64 := by simp [Machine.pop, hne]
    refine ⟨σ', hrun, hmem, ?_, ?_, ?_⟩
    · rw [hrsp, hpop, List.length_cons, Machine.ofNat_slot, BitVec.add_assoc]
    · rw [List.map_cons, List.length_cons, σ.topWords_pop _ (Ne.symm hne), hwords,
        hother r hr (Ne.symm hne)]
      simp [Machine.pop]
    · intro q hq hqsp
      obtain ⟨hqr, hq⟩ := not_or.1 (mt List.mem_cons.2 hq)
      rw [hother q hq hqsp]
      simp [Machine.pop, hqr, hqsp]

/-- A call moves the stack pointer by the extra word and back, and keeps what a callee keeps. -/
theorem Expr.run_callInstrs (W : World) (f : String) (depth : Nat) {σ : Machine}
    (hroom : W.below (σ.regs .rsp) + 8 ≤ W.reserve) :
    ∃ σ', W.run (callInstrs f depth) σ = some σ' ∧
      σ'.regs .rax = (W.callee f (argRegs.map σ.regs) (W.view σ.mem)).1 ∧
      W.view σ'.mem = (W.callee f (argRegs.map σ.regs) (W.view σ.mem)).2 ∧ W.Kept σ σ' := by
  have hargs (τ : Machine) (h : ∀ r ∈ argRegs, τ.regs r = σ.regs r) :
      argRegs.map τ.regs = argRegs.map σ.regs := List.map_congr_left h
  have hview (τ : Machine) (f : String) :
      W.view (W.call f τ).mem = (W.callee f (argRegs.map τ.regs) (W.view τ.mem)).2 := by
    funext a
    simp [World.view, World.call, a.2]
  have hwaits (τ : Machine) (f : String) (a : Quad) (hle : W.below (τ.regs .rsp) ≤ W.reserve)
      (h : W.Waits τ a) : (W.call f τ).mem a = τ.mem a := by
    simp [World.call, World.not_own_of_waits hle h, h]
  have := W.reserve_lt
  unfold callInstrs
  split
  · have hb : W.below (σ.regs .rsp - 8#64) = W.below (σ.regs .rsp) + 8 :=
      World.below_sub_eight (by omega)
    refine ⟨_, rfl, ?_, ?_, ?_, ?_, ?_⟩
    · simp [World.call, argRegs]
    · simp only [Machine.compute_mem]
      rw [hview, hargs]
      · simp
      · simp [argRegs]
    · simp [World.call, BitVec.sub_add_cancel]
    · simp [World.call]
    · rintro a ⟨h0, h⟩
      rw [Machine.compute_mem, hwaits]
      · simp
      · simp
        omega
      · refine ⟨h0, ?_⟩
        simp
        omega
  · refine ⟨_, rfl, ?_, ?_, ?_, ?_, ?_⟩
    · simp [World.call, argRegs]
    · rw [hview, hargs]
      · simp
      · simp [argRegs]
    · simp [World.call]
    · simp [World.call]
    · intro a ha
      rw [hwaits]
      · simp
      · simp
        omega
      · simpa [World.Waits] using ha

/-! ## Code beside an evaluation -/

namespace World

variable {W : World} {α β : Type} {code code' : List Instr} {σ τ : Machine}

/-- Whenever the evaluation `ev` of the program's words is defined, the code runs to an end where
`value` is the result, the words are the resulting ones and `post` holds. The spare words that the
evaluation uses up are those that the machine has in its registers. -/
def Follows (W : World) (code : List Instr) (σ : Machine) (ev : W.Eval α) (value : Machine → α)
    (post : Machine → Prop) : Prop :=
  ∃ used : List Quad, ∀ rest v s, ev ⟨W.view σ.mem, used ++ₛ rest⟩ = some (v, s) →
    s.spare = rest ∧ ∃ τ, W.run code σ = some τ ∧ value τ = v ∧ W.view τ.mem = s.words ∧ post τ

/-- Code that has its result without changing the program's words. -/
theorem Follows.pure {value : Machine → α} {post : Machine → Prop} {v : α}
    (hrun : W.run code σ = some τ) (hval : value τ = v) (hview : W.view τ.mem = W.view σ.mem)
    (hpost : post τ) : W.Follows code σ (Pure.pure v) value post := by
  refine ⟨[], fun rest w s h => ?_⟩
  cases h
  exact ⟨rfl, τ, hrun, hval, hview, hpost⟩

/-- Code in front that the evaluation does not see. -/
theorem Follows.after {ev : W.Eval α} {value : Machine → α} {post : Machine → Prop}
    (hrun : W.run code σ = some τ) (hview : W.view τ.mem = W.view σ.mem)
    (h : W.Follows code' τ ev value post) : W.Follows (code ++ code') σ ev value post := by
  obtain ⟨used, h⟩ := h
  refine ⟨used, fun rest v s hev => ?_⟩
  rw [← hview] at hev
  rw [W.run_append, hrun]
  exact h rest v s hev

/-- One piece of code behind the other follows one evaluation behind the other. -/
theorem Follows.bind {ev : W.Eval α} {next : α → W.Eval β} {value : Machine → α}
    {value' : Machine → β} {post post' : Machine → Prop} (h : W.Follows code σ ev value post)
    (h' : ∀ τ, W.run code σ = some τ → post τ → W.Follows code' τ (next (value τ)) value' post') :
    W.Follows (code ++ code') σ (ev >>= next) value' post' := by
  obtain ⟨used, h⟩ := h
  -- The machine decides where the first piece ends, and so which words the second one uses up.
  by_cases hend : ∃ τ, W.run code σ = some τ ∧ post τ
  · obtain ⟨τ, hrun, hpost⟩ := hend
    obtain ⟨used', h'⟩ := h' τ hrun hpost
    refine ⟨used ++ used', fun rest v s hev => ?_⟩
    obtain ⟨⟨a, s₁⟩, hev₁, hev₂⟩ := Option.bind_eq_some_iff.1 hev
    rw [Stream'.append_append_stream] at hev₁
    obtain ⟨hspare, τ', hrun', hval, hview, -⟩ := h _ _ _ hev₁
    cases hrun.symm.trans hrun'
    rw [W.run_append, hrun]
    refine h' rest v s ?_
    rw [hval, hview, ← hspare]
    exact hev₂
  · refine ⟨used, fun rest v s hev => ?_⟩
    obtain ⟨⟨a, s₁⟩, hev₁, -⟩ := Option.bind_eq_some_iff.1 hev
    obtain ⟨-, τ, hrun, -, -, hpost⟩ := h _ _ _ hev₁
    exact absurd ⟨τ, hrun, hpost⟩ hend

theorem Follows.mono {ev : W.Eval α} {value : Machine → α} {post post' : Machine → Prop}
    (h : W.Follows code σ ev value post) (himp : ∀ τ, post τ → post' τ) :
    W.Follows code σ ev value post' := by
  obtain ⟨used, h⟩ := h
  refine ⟨used, fun rest v s hev => ?_⟩
  obtain ⟨hspare, τ, hrun, hval, hview, hpost⟩ := h rest v s hev
  exact ⟨hspare, τ, hrun, hval, hview, himp τ hpost⟩

/-- What a call of `n` arguments finds when it starts: they are on the stack, and nothing below them
has changed. -/
structure Stacked (W : World) (n : Nat) (σ τ : Machine) : Prop where
  rsp : τ.regs .rsp + BitVec.ofNat 64 (8 * n) = σ.regs .rsp
  rbp : τ.regs .rbp = σ.regs .rbp
  waits : ∀ a, W.Waits σ a → W.Waits τ a ∧ τ.mem a = σ.mem a

end World

/-! ## Expressions -/

namespace Expr

open World

variable (W : World)

/-- The code of a variable or a dereference behind the code of its address. -/
theorem follows_load (ty : Ty) {σ : Machine} :
    W.Follows (loadInstrs ty) σ (W.fetch ty (σ.regs .rax)) (·.regs .rax) (W.Kept σ) := by
  unfold loadInstrs World.fetch
  cases ty.isArray with
  | true => exact Follows.pure rfl rfl rfl (.of_mem_eq rfl rfl rfl)
  | false =>
    refine ⟨[], fun rest v s h => ?_⟩
    simp only [Bool.false_eq_true, if_false, World.read] at h
    split at h
    · cases h
      exact ⟨rfl, _, rfl, by simp [view], rfl, .of_mem_eq rfl rfl rfl⟩
    · cases h

theorem follows_var (v : Var) {σ : Machine} :
    W.Follows (varInstrs v) σ (pure (W.address (σ.regs .rbp) v)) (·.regs .rax) (W.Kept σ) := by
  have hrun : ∃ τ, W.run (varInstrs v) σ = some τ ∧ τ.mem = σ.mem ∧
      τ.regs .rax = W.address (σ.regs .rbp) v ∧ τ.regs .rsp = σ.regs .rsp ∧
      τ.regs .rbp = σ.regs .rbp := by
    cases v with
    | frame v => exact ⟨_, rfl, rfl, by simp [World.address], rfl, rfl⟩
    | data v => exact ⟨_, rfl, rfl, by simp [World.address], rfl, rfl⟩
  obtain ⟨τ, hrun, hmem, hrax, hsp, hbp⟩ := hrun
  exact Follows.pure hrun hrax (by rw [hmem]) (.of_mem_eq hsp hbp hmem)

/-- A word pushed, code that follows an evaluation, and the word popped into `rdi`. -/
theorem follows_bracket {code code' : List Instr} {σ : Machine} {α : Type} {ev : W.Eval Quad}
    {next : Quad → W.Eval α} {value : Machine → α} {post : Machine → Prop}
    (hroom : W.below (σ.regs .rsp) + 8 ≤ W.reserve)
    (h : W.Follows code (σ.push (σ.regs .rax)) ev (·.regs .rax) (W.Kept (σ.push (σ.regs .rax))))
    (h' : ∀ τ, W.Kept σ τ → τ.regs .rdi = σ.regs .rax →
      W.Follows code' τ (next (τ.regs .rax)) value post) :
    W.Follows ([.push .rax] ++ code ++ [.pop .rdi] ++ code') σ (ev >>= next) value post := by
  rw [List.append_assoc, List.append_assoc]
  refine Follows.after rfl (view_push hroom) (h.bind fun τ _ hkept => ?_)
  obtain ⟨hk, hv⟩ := hkept.bracket hroom (r := .rdi) (by decide) (by decide)
  exact Follows.after (τ := τ.pop .rdi) rfl rfl (h' _ hk hv)

/-- With enough room on the stack, the code of the expression follows its evaluation. -/
def CodeFollows (e : Expr) : Prop :=
  ∀ depth (σ : Machine), W.below (σ.regs .rsp) + 8 * e.need ≤ W.reserve →
    W.Follows (e.code depth) σ (e.eval W (σ.regs .rbp)) (·.regs .rax) (W.Kept σ)

/-- The same of the code for its address. -/
def AddressFollows (e : Expr) : Prop :=
  ∀ depth (σ : Machine), W.below (σ.regs .rsp) + 8 * e.need ≤ W.reserve →
    W.Follows (e.addressCode depth) σ (e.evalAddress W (σ.regs .rbp)) (·.regs .rax) (W.Kept σ)

variable {W}

theorem CodeFollows.binary {op : BinaryOp} {lhs rhs : Expr} {ty : Ty} {loc : Loc}
    (hl : lhs.CodeFollows W) (hr : rhs.CodeFollows W) :
    (Expr.binary op lhs rhs ty loc).CodeFollows W := by
  intro depth σ hroom
  simp only [need] at hroom
  simp only [code, List.append_assoc]
  refine (hr depth σ (by omega)).bind fun τ _ hτ => ?_
  rw [← List.append_assoc, ← List.append_assoc]
  have hroom' : W.below (τ.regs .rsp) + 8 ≤ W.reserve := by rw [hτ.rsp]; omega
  refine follows_bracket W hroom' ?_ fun τ' hτ' hrdi => ?_
  · rw [← hτ.rbp, ← push_regs τ (τ.regs .rax) (show Reg.rbp ≠ .rsp by decide)]
    exact hl (depth + 1) _ (by rw [below_push hroom', hτ.rsp]; omega)
  · refine ⟨[], fun rest v s h => ?_⟩
    obtain ⟨w, hw, hs⟩ := Option.bind_eq_some_iff.1 h
    cases hs
    rw [← hrdi] at hw
    obtain ⟨τ'', hrun, hrax, hmem, hsp, hbp⟩ := op.run_instrs W hw
    exact ⟨rfl, τ'', hrun, hrax, by rw [hmem], (hτ.trans hτ').trans (.of_mem_eq hsp hbp hmem)⟩

theorem CodeFollows.assign {lhs rhs : Expr} {ty : Ty} {loc : Loc}
    (hl : lhs.AddressFollows W) (hr : rhs.CodeFollows W) :
    (Expr.assign lhs rhs ty loc).CodeFollows W := by
  intro depth σ hroom
  simp only [need] at hroom
  simp only [code, List.append_assoc]
  refine (hl depth σ (by omega)).bind fun τ _ hτ => ?_
  have hroom' : W.below (τ.regs .rsp) + 8 ≤ W.reserve := by rw [hτ.rsp]; omega
  rw [← List.append_assoc, show [Instr.pop .rdi, .store .rax .rdi] = [.pop .rdi] ++ [.store .rax .rdi]
    from rfl, ← List.append_assoc]
  refine follows_bracket W hroom' ?_ fun τ' hτ' hrdi => ?_
  · rw [← hτ.rbp, ← push_regs τ (τ.regs .rax) (show Reg.rbp ≠ .rsp by decide)]
    exact hr (depth + 1) _ (by rw [below_push hroom', hτ.rsp]; omega)
  · refine ⟨[], fun rest v s h => ?_⟩
    obtain ⟨⟨_, s₁⟩, hw, hs⟩ := Option.bind_eq_some_iff.1 h
    cases hs
    simp only [World.write] at hw
    split at hw
    · rename_i hown
      cases hw
      have hk := hτ.trans hτ'
      refine ⟨rfl, τ'.write (τ'.regs .rdi) (τ'.regs .rax), rfl, rfl, ?_, hk.trans ?_⟩
      · rw [hrdi]
        exact view_write hown
      · exact Kept.write (by rw [hk.rsp]; omega) (hrdi ▸ hown)
    · cases hw

/-- Arguments are left on the stack, the last one on top. -/
theorem follows_pushArgs : ∀ (args : List Expr), (∀ arg ∈ args, arg.CodeFollows W) →
    ∀ depth (σ : Machine), W.below (σ.regs .rsp) + 8 * need.argsNeed args ≤ W.reserve →
      W.Follows (pushArgs depth args) σ (evalArgs W (σ.regs .rbp) args)
        (fun τ => (τ.topWords args.length).reverse) (W.Stacked args.length σ)
  | [], _, _, σ, _ => Follows.pure rfl rfl rfl ⟨by simp, rfl, fun _ h => ⟨h, rfl⟩⟩
  | arg :: args, hargs, depth, σ, hroom => by
    obtain ⟨harg, hargs⟩ := List.forall_mem_cons.1 hargs
    simp only [need.argsNeed] at hroom
    simp only [pushArgs, List.append_assoc]
    refine (harg depth σ (by omega)).bind fun τ _ hτ => ?_
    have hroom' : W.below (τ.regs .rsp) + 8 ≤ W.reserve := by rw [hτ.rsp]; omega
    have hbelow := below_push (v := τ.regs .rax) hroom'
    refine Follows.after (τ := τ.push (τ.regs .rax)) rfl (view_push hroom') ?_
    have ih := follows_pushArgs args hargs (depth + 1) (τ.push (τ.regs .rax))
      (by rw [hbelow, hτ.rsp]; omega)
    rw [push_regs τ (τ.regs .rax) (show Reg.rbp ≠ .rsp by decide), hτ.rbp] at ih
    rw [← List.append_nil (pushArgs (depth + 1) args)]
    refine ih.bind fun τ' _ hτ' => ?_
    -- The word just pushed lies under the arguments that came after it.
    have hword : τ'.mem (τ'.regs .rsp + BitVec.ofNat 64 (8 * args.length)) = τ.regs .rax := by
      rw [hτ'.rsp, (hτ'.waits _ ⟨by omega, Nat.le_refl _⟩).2, push_rsp, push_mem,
        Function.update_self]
    refine Follows.pure rfl ?_ rfl ⟨?_, ?_, fun a ha => ?_⟩
    · rw [List.length_cons, Machine.topWords_succ, hword]
      simp
    · rw [List.length_cons, Machine.ofNat_slot, BitVec.add_comm 8#64, ← BitVec.add_assoc, hτ'.rsp,
        push_rsp, BitVec.sub_add_cancel, hτ.rsp]
    · rw [hτ'.rbp, push_regs _ _ (by decide), hτ.rbp]
    · have ha' : W.Waits τ a := by unfold Waits at *; rwa [hτ.rsp]
      obtain ⟨h1, h2⟩ := waits_push (v := τ.regs .rax) hroom' ha'
      obtain ⟨h3, h4⟩ := hτ'.waits a h1
      exact ⟨h3, by rw [h4, h2, hτ.waits a ha]⟩

/-- The arguments go from the stack into their registers, the last one first. -/
theorem run_popArgs {n : Nat} (hn : n ≤ maxArgs) {σ τ : Machine} (h : W.Stacked n σ τ) :
    ∃ τ', W.run (popArgs n) τ = some τ' ∧ τ'.mem = τ.mem ∧ W.Kept σ τ' ∧
      argRegs.map τ'.regs = (τ.topWords n).reverse ++ (argRegs.drop n).map τ'.regs := by
  have hlen : ((argRegs.take n).reverse).length = n := by
    rw [List.length_reverse, List.length_take]
    exact Nat.min_eq_left hn
  have hsub {r : Reg} (hr : r ∈ (argRegs.take n).reverse) : r ∈ argRegs :=
    List.mem_of_mem_take (List.mem_reverse.1 hr)
  obtain ⟨τ', hrun, hmem, hsp, hwords, hother⟩ := W.run_pops (argRegs.take n).reverse τ
    (List.nodup_reverse.2 ((show argRegs.Nodup by decide).sublist (List.take_sublist _ _)))
    fun hr => absurd (hsub hr) (by decide)
  rw [hlen] at hsp hwords
  refine ⟨τ', hrun, hmem, ⟨hsp.trans h.rsp, ?_, fun a ha => ?_⟩, ?_⟩
  · rw [hother .rbp (fun hr => absurd (hsub hr) (by decide)) (by decide), h.rbp]
  · rw [hmem, (h.waits a ha).2]
  · rw [← hwords, List.map_reverse, List.reverse_reverse, ← List.map_append, List.take_append_drop]

theorem CodeFollows.call {callee : String} {args : List Expr} {ty : Ty} {loc : Loc}
    (hn : args.length ≤ maxArgs) (hargs : ∀ arg ∈ args, arg.CodeFollows W) :
    (Expr.call callee args ty loc).CodeFollows W := by
  intro depth σ hroom
  simp only [need] at hroom
  simp only [code, List.append_assoc]
  refine (follows_pushArgs args hargs depth σ (by omega)).bind fun τ _ hτ => ?_
  obtain ⟨τ', hrun, hmem, hτ', hregs⟩ := run_popArgs hn hτ
  refine Follows.after hrun (by rw [hmem]) ?_
  obtain ⟨τ'', hrun', hrax, hview, hτ''⟩ :=
    run_callInstrs W callee depth (σ := τ') (by rw [hτ'.rsp]; omega)
  -- The registers that the call does not set are what the evaluator takes for spare words.
  refine ⟨(argRegs.drop args.length).map τ'.regs, fun rest v s h => ?_⟩
  have hlen : maxArgs - (τ.topWords args.length).reverse.length =
      ((argRegs.drop args.length).map τ'.regs).length := by
    simp [Machine.topWords, maxArgs, argRegs]
  simp only [World.invoke, hlen, Stream'.drop_append_stream] at h
  rw [Stream'.take_append_of_le_length _ _ _ (Nat.le_refl _), List.take_length, ← hregs] at h
  cases h
  exact ⟨rfl, τ'', hrun', hrax, hview, hτ'.trans hτ''⟩

/-- The code of an expression follows its evaluation, and so does the code for its address if it is a
place. -/
theorem follows_code (e : Expr) : e.fault? = none →
    e.CodeFollows W ∧ (e.isLvalue → e.AddressFollows W) := by
  induction e with
  | num value ty loc =>
    intro _
    refine ⟨fun depth σ _ => ?_, fun h => by cases h⟩
    exact Follows.pure rfl (by simp) rfl (.of_mem_eq rfl rfl rfl)
  | var v ty loc =>
    intro _
    refine ⟨fun depth σ _ => ?_, fun _ depth σ _ => follows_var W v⟩
    exact (follows_var W v).bind fun τ _ hτ => (follows_load W ty).mono fun _ => hτ.trans
  | unary op operand ty loc ih =>
    intro hf
    cases op with
    | neg =>
      refine ⟨fun depth σ hroom => ?_, fun h => by cases h⟩
      refine ((ih hf).1 depth σ hroom).bind fun τ _ hτ => ?_
      exact Follows.pure rfl (by simp) rfl (hτ.trans (.of_mem_eq rfl rfl rfl))
    | addr =>
      obtain ⟨hl, hf⟩ := (addressFault?_eq_none_iff operand).1 hf
      exact ⟨(ih hf).2 hl, fun h => by cases h⟩
    | deref =>
      refine ⟨fun depth σ hroom => ?_, fun _ => (ih hf).1⟩
      exact ((ih hf).1 depth σ hroom).bind fun τ _ hτ =>
        (follows_load W ty).mono fun _ => hτ.trans
  | binary op lhs rhs ty loc ihl ihr =>
    intro hf
    obtain ⟨hr, hl⟩ := Option.or_eq_none_iff.1 hf
    exact ⟨(ihl hl).1.binary (ihr hr).1, fun h => by cases h⟩
  | assign lhs rhs ty loc ihl ihr =>
    intro hf
    obtain ⟨hl, hr⟩ := Option.or_eq_none_iff.1 hf
    obtain ⟨hplace, hl⟩ := (addressFault?_eq_none_iff lhs).1 hl
    exact ⟨.assign ((ihl hl).2 hplace) (ihr hr).1, fun h => by cases h⟩
  | call callee args ty loc ih =>
    intro hf
    obtain ⟨hargs, hn⟩ := Option.or_eq_none_iff.1 hf
    refine ⟨.call (by simpa using hn) fun arg harg => ?_, fun h => by cases h⟩
    exact (ih arg harg (argsFault?_eq_none_iff.1 hargs arg harg)).1

/-- **Code preserves meaning.** Let every assignment in `e` be to a variable or a dereference, every
address be taken of one, and every call have at most six arguments; let the evaluation of `e` from
the program's words be defined and the stack have room for its operands. Then the code of `e`, under
any number of waiting operands, runs to its end; `rax` and the program's words are then what `e`
yields, and the stack pointer, the frame base and every waiting operand are as before. -/
theorem run_code_yields (W : World) (e : Expr) (hemit : ∀ n ∈ e.nodes, n.emittable) (depth : Nat)
    (σ : Machine) (hroom : W.below (σ.regs .rsp) + 8 * e.need ≤ W.reserve)
    (hdef : e.Defined W (σ.regs .rbp) (W.view σ.mem)) :
    ∃ τ, W.run (e.code depth) σ = some τ ∧
      e.Yields W (σ.regs .rbp) (W.view σ.mem) (τ.regs .rax) (W.view τ.mem) ∧
      τ.regs .rsp = σ.regs .rsp ∧ τ.regs .rbp = σ.regs .rbp ∧
      ∀ a, W.Waits σ a → τ.mem a = σ.mem a := by
  obtain ⟨used, h⟩ := (follows_code e ((fault?_eq_none_iff e).2 hemit)).1 depth σ hroom
  obtain ⟨⟨v, s⟩, hev⟩ := Option.isSome_iff_exists.1 (hdef (used ++ₛ Stream'.const 0#64))
  obtain ⟨-, τ, hrun, hrax, hview, hkept⟩ := h _ v s hev
  refine ⟨τ, hrun, ⟨used ++ₛ Stream'.const 0#64, s.spare, ?_⟩, hkept.rsp, hkept.rbp, hkept.waits⟩
  subst hrax
  rw [hview]
  exact hev

/-- One variable of the program at `0x1000`, and functions that add their first two arguments and
leave nothing else behind. -/
def sampleWorld : World where
  own a := a == 0x1000#64
  top := 0x2000#64
  reserve := 64
  reserve_lt := by decide
  own_apart a ha := by
    cases beq_iff_eq.1 ha
    decide
  symbol _ := 0#64
  callee _ args words := (args.getD 0 0#64 + args.getD 1 0#64, words)
  debris _ _ := ⟨fun _ => 0#64, fun _ => 0#64, none⟩

/-- `x = f(x, 2) - x * 3`, the variable being the word below the frame base. -/
def sampleAssignment : Expr :=
  let x : Expr := .var (.frame ⟨"x", .int, -8⟩) .int .nowhere
  .assign x
    (.binary .sub (.call "f" [x, .num 2 .int .nowhere] .int .nowhere)
      (.binary .mul x (.num 3 .int .nowhere) .int .nowhere) .int .nowhere) .int .nowhere

/-- A frame base at `0x1008`, an empty operand stack and the variable set to 5. -/
def sampleMachine : Machine where
  regs
    | .rbp => 0x1008#64
    | .rsp => 0x2000#64
    | _ => 0#64
  mem a := if a = 0x1000#64 then 5#64 else 0#64
  flags := none

theorem run_sampleAssignment :
    sampleWorld.below (sampleMachine.regs .rsp) + 8 * sampleAssignment.need ≤ sampleWorld.reserve ∧
    sampleAssignment.Defined sampleWorld 0x1008#64 (sampleWorld.view sampleMachine.mem) ∧
    ∃ τ, sampleWorld.run (sampleAssignment.code 0) sampleMachine = some τ ∧
      sampleAssignment.Yields sampleWorld 0x1008#64 (sampleWorld.view sampleMachine.mem)
        (τ.regs .rax) (sampleWorld.view τ.mem) ∧
      τ.regs .rsp = 0x2000#64 ∧ τ.regs .rbp = 0x1008#64 ∧
      ∀ a, sampleWorld.Waits sampleMachine a → τ.mem a = sampleMachine.mem a := by
  have hroom : sampleWorld.below (sampleMachine.regs .rsp) + 8 * sampleAssignment.need ≤
      sampleWorld.reserve := by decide
  have hdef : sampleAssignment.Defined sampleWorld 0x1008#64
      (sampleWorld.view sampleMachine.mem) := fun _ => rfl
  exact ⟨hroom, hdef, run_code_yields sampleWorld sampleAssignment (by decide) 0 sampleMachine hroom
    hdef⟩

end Expr

end WordC
