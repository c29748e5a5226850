import WordC.Proofs.Reading

/-!
# Reading expressions under a discipline

The readers of expressions call each other with a budget. With `r` tokens left, a budget of `16 * r`
and a constant suffices: on the way from `assign` down to `primary` no token has to be read, but
there are fewer than sixteen readers on that way, and before it is taken again a token is read.

* `Combines`: the trees that a written operator can build from its two operands.
* `ExpressionSpecs`: what each of the readers does with a budget that suffices for it.
* `expressionSpecs`: all of them do it, by induction on the budget, with one lemma for each reader.
* `Yields.expression`: an expression is read within the tokens that are left; its tree is good and
  at least one token is gone.
-/
namespace WordC.Parse

/-! ## What operators build -/

/-- The tree combines the operands `a` and `b`. -/
inductive Combines (a b : Expr) (loc : Loc) : Expr → Prop where
  | other (op : BinaryOp) : op ≠ .add → op ≠ .sub → Combines a b loc (.mkBinary op a b loc)
  | plain (op : BinaryOp) : op = .add ∨ op = .sub → a.ty.isPointer = false →
    b.ty.isPointer = false → Combines a b loc (.mkBinary op a b loc)
  /-- A step from a pointer, counted in elements. -/
  | step (op : BinaryOp) {size : Int} : op = .add ∨ op = .sub → a.ty.isPointer →
    b.ty.isPointer = false → a.ty.stride = .ok size →
    Combines a b loc (.mkBinary op a (.mkBinary .mul b (.mkNum size loc) loc) loc)
  /-- The difference of two pointers, counted in elements. -/
  | distance {size : Int} : a.ty.isPointer → b.ty.isPointer → a.ty.stride = .ok size →
    Combines a b loc (.mkBinary .div (.binary .sub a b .int loc) (.mkNum size loc) loc)

namespace Operator

variable {lhs rhs e : Expr} {loc : Loc} {f : Fault}

theorem step_ok {op : BinaryOp} (hop : op = .add ∨ op = .sub) (hl : lhs.ty.isPointer)
    (hr : rhs.ty.isPointer = false) (h : Expr.step op lhs rhs loc = .ok e) : Combines lhs rhs loc e := by
  unfold Expr.step Expr.scale at h
  cases hsize : lhs.ty.stride with
  | error fault => rw [hsize] at h; cases h
  | ok size =>
    rw [hsize] at h
    cases h
    exact .step op hop hl hr hsize

theorem step_fault {op : BinaryOp} (h : Expr.step op lhs rhs loc = .error (.faulted f)) :
    lhs.ty.stride = .error f := by
  unfold Expr.step Expr.scale at h
  cases hsize : lhs.ty.stride with
  | error fault => rw [hsize] at h; cases h; rfl
  | ok size => rw [hsize] at h; cases h

theorem distance_ok (hl : lhs.ty.isPointer) (hr : rhs.ty.isPointer)
    (h : Expr.distance lhs rhs loc = .ok e) : Combines lhs rhs loc e := by
  unfold Expr.distance at h
  cases hsize : lhs.ty.stride with
  | error fault => rw [hsize] at h; cases h
  | ok size =>
    rw [hsize] at h
    cases h
    exact .distance hl hr hsize

theorem distance_fault (h : Expr.distance lhs rhs loc = .error (.faulted f)) :
    lhs.ty.stride = .error f := by
  unfold Expr.distance at h
  cases hsize : lhs.ty.stride with
  | error fault => rw [hsize] at h; cases h; rfl
  | ok size => rw [hsize] at h; cases h

theorem plus_ok (h : Expr.plus lhs rhs loc = .ok e) :
    Combines lhs rhs loc e ∨ Combines rhs lhs loc e := by
  unfold Expr.plus at h
  split at h
  · rename_i hl hr
    cases h
    exact .inl (.plain .add (.inl rfl) hl hr)
  · rename_i hl hr
    exact .inl (step_ok (.inl rfl) hl hr h)
  · rename_i hl hr
    exact .inr (step_ok (.inl rfl) hr hl h)
  · cases h

theorem minus_ok (h : Expr.minus lhs rhs loc = .ok e) : Combines lhs rhs loc e := by
  unfold Expr.minus at h
  split at h
  · rename_i hl hr
    cases h
    exact .plain .sub (.inr rfl) hl hr
  · rename_i hl hr
    exact step_ok (.inr rfl) hl hr h
  · rename_i hl hr
    exact distance_ok hl hr h
  · cases h

theorem build_ok {op : Operator} (h : op.build lhs rhs loc = .ok e) :
    Combines lhs rhs loc e ∨ Combines rhs lhs loc e := by
  cases op with
  | add => exact plus_ok h
  | sub => exact .inl (minus_ok h)
  | gt => cases h; exact .inr (.other .lt (by decide) (by decide))
  | ge => cases h; exact .inr (.other .le (by decide) (by decide))
  | eq => cases h; exact .inl (.other .eq (by decide) (by decide))
  | ne => cases h; exact .inl (.other .ne (by decide) (by decide))
  | lt => cases h; exact .inl (.other .lt (by decide) (by decide))
  | le => cases h; exact .inl (.other .le (by decide) (by decide))
  | mul => cases h; exact .inl (.other .mul (by decide) (by decide))
  | div => cases h; exact .inl (.other .div (by decide) (by decide))

/-- Only the size of a pointee can be at fault. -/
theorem build_fault {op : Operator} (h : op.build lhs rhs loc = .error (.faulted f)) :
    lhs.ty.stride = .error f ∨ rhs.ty.stride = .error f := by
  cases op with
  | add =>
    replace h : Expr.plus lhs rhs loc = .error (.faulted f) := h
    unfold Expr.plus at h
    split at h
    · cases h
    · exact .inl (step_fault h)
    · exact .inr (step_fault h)
    · cases h
  | sub =>
    replace h : Expr.minus lhs rhs loc = .error (.faulted f) := h
    unfold Expr.minus at h
    split at h
    · cases h
    · exact .inl (step_fault h)
    · exact .inl (distance_fault h)
    · cases h
  | eq | ne | lt | le | gt | ge | mul | div => cases h

end Operator

/-! ## Budgets -/

/-- The constant in the budget for an operand of a level. A chain takes one more. -/
def Level.rank : Level → Nat
  | equality => 11
  | relational => 9
  | additive => 7
  | multiplicative => 5

namespace Discipline

/-- A tree is read, and at least one token. -/
def ReadsTree (D : Discipline) (s : State) : Outcome Expr → Prop :=
  D.Yields s fun e s' => D.Tree s' e ∧ s'.rest.length < s.rest.length

structure ExpressionSpecs (D : Discipline) (budget : Nat) : Prop where
  assign (s : State) : D.Inv s → 16 * s.rest.length + 13 ≤ budget →
    D.ReadsTree s ((Parser.assign budget).run s)
  chain (s : State) (level : Level) : D.Inv s → 16 * s.rest.length + level.rank + 1 ≤ budget →
    D.ReadsTree s ((Parser.chain budget level).run s)
  operand (s : State) (level : Level) : D.Inv s → 16 * s.rest.length + level.rank ≤ budget →
    D.ReadsTree s ((Parser.operand budget level).run s)
  chainFrom (s : State) (level : Level) (lhs : Expr) : D.Inv s → D.Tree s lhs →
    16 * s.rest.length + 1 ≤ budget →
    D.Yields s (fun e s' => D.Tree s' e) ((Parser.chainFrom budget level lhs).run s)
  unary (s : State) : D.Inv s → 16 * s.rest.length + 4 ≤ budget →
    D.ReadsTree s ((Parser.unary budget).run s)
  subscripted (s : State) : D.Inv s → 16 * s.rest.length + 3 ≤ budget →
    D.ReadsTree s ((Parser.subscripted budget).run s)
  subscripts (s : State) (base : Expr) : D.Inv s → D.Tree s base →
    16 * s.rest.length + 1 ≤ budget →
    D.Yields s (fun e s' => D.Tree s' e) ((Parser.subscripts budget base).run s)
  primary (s : State) : D.Inv s → 16 * s.rest.length + 2 ≤ budget →
    D.ReadsTree s ((Parser.primary budget).run s)
  arguments (s : State) : D.Inv s → 16 * s.rest.length + 14 ≤ budget →
    D.Yields s (fun es s' => (∀ e ∈ es, D.Tree s' e) ∧ s'.rest.length < s.rest.length)
      ((Parser.arguments budget).run s)

/-! ## One reader at a time -/

section

open Yields

variable {D : Discipline} {s : State} {budget : Nat}

theorem checkCall_yields {callee : String} {args : List Expr} {loc : Loc} (hs : D.Inv s) :
    D.Yields s (fun _ s' => s'.Checked callee args loc ∧ s'.rest = s.rest)
      ((Parser.checkCall callee (args.map fun arg => ⟨arg.ty, arg.loc⟩) loc).run s) := by
  unfold Parser.checkCall
  rw [Parser.run_get_bind]
  split
  · rename_i signature hfind
    refine Yields.bind (Yields.record hs _) fun _ s' hs' hgrows hrest => ?_
    split
    · exact Yields.reject hs'
    · rename_i hcount
      refine Yields.pure hs' ⟨?_, hrest⟩
      simp only [State.Checked, hgrows.signatures, hfind]
      simp only [Argument.countProblem?, List.length_map] at hcount
      split at hcount
      · cases hcount
      · split at hcount
        · cases hcount
        · omega
  · rename_i hfind
    refine ⟨D.wait _ hs hfind, .wait s _, ?_, rfl⟩
    simp [State.Checked, hfind]

theorem callOf_yields {callee : String} {args : List Expr} {loc : Loc} (hs : D.Inv s)
    (hargs : ∀ arg ∈ args, D.Tree s arg) :
    D.Yields s (fun e s' => D.Tree s' e ∧ s'.rest = s.rest)
      ((Parser.callOf callee args loc).run s) := by
  unfold Parser.callOf
  split
  · exact Yields.reject hs
  · rename_i hcount
    refine Yields.bind (checkCall_yields hs) fun _ s' hs' hgrows hchecked => ?_
    refine Yields.pure hs' ⟨D.call ?_ (by omega) hchecked.1, hchecked.2⟩
    exact fun arg harg => D.grows (hargs arg harg) hgrows

theorem variableOf_yields {token : Token} (hs : D.Inv s) :
    D.Yields s (fun e s' => D.Tree s' e ∧ s'.rest = s.rest) ((Parser.variableOf token).run s) := by
  unfold Parser.variableOf
  rw [Parser.run_get_bind]
  split
  · rename_i v hv
    exact Yields.pure hs ⟨D.var hs hv, rfl⟩
  · exact Yields.reject hs

theorem build_yields (op : Operator) {lhs rhs : Expr} {loc : Loc} (hs : D.Inv s)
    (hlhs : D.Tree s lhs) (hrhs : D.Tree s rhs) :
    D.Yields s (fun e s' => D.Tree s' e ∧ s'.rest = s.rest)
      ((Parser.ofStop (op.build lhs rhs loc)).run s) :=
  Yields.ofStop hs (fun _ he => ⟨D.binary op hlhs hrhs he, rfl⟩)
    fun _ hfault => D.binary_fault op hlhs hrhs hfault

theorem mkUnary_yields {op : UnaryOp} {operand : Expr} {loc : Loc} (hs : D.Inv s)
    (hoperand : D.Tree s operand) (hop : op = .addr → operand.isLvalue) :
    D.Yields s (fun e s' => D.Tree s' e ∧ s'.rest = s.rest)
      ((Parser.ofRejection (Expr.mkUnary op operand loc)).run s) :=
  Yields.ofRejection hs fun _ he => ⟨D.unary hoperand hop he, rfl⟩

theorem sizeof_yields {operand : Expr} (hs : D.Inv s) (hoperand : D.Tree s operand) :
    D.Yields s (fun n s' => (∀ loc, D.Tree s' (.mkNum n loc)) ∧ s'.rest = s.rest)
      ((Parser.ofFault operand.ty.size).run s) :=
  Yields.ofFault hs (fun _ hn => ⟨fun _ => D.sizeof hoperand hn, rfl⟩)
    fun _ hfault => D.sizeof_fault hoperand hfault

/-- A tree that takes no more tokens, where `n` were more than those left. -/
theorem Yields.within {o : Outcome Expr} {n : Nat}
    (ho : D.Yields s (fun e s' => D.Tree s' e ∧ s'.rest = s.rest) o) (hlen : s.rest.length < n) :
    D.Yields s (fun e s' => D.Tree s' e ∧ s'.rest.length < n) o := by
  refine ho.mono fun e s' _ _ h => ⟨h.1, ?_⟩
  rw [h.2]
  exact hlen

theorem ExpressionSpecs.assign_succ (h : D.ExpressionSpecs budget) (hs : D.Inv s)
    (hb : 16 * s.rest.length + 13 ≤ budget + 1) :
    D.ReadsTree s ((Parser.assign (budget + 1)).run s) := by
  rw [Parser.assign]
  refine Yields.bind (h.chain s .equality hs (by simp only [Level.rank]; omega)) ?_
  intro target s₁ hs₁ _ h₁
  obtain ⟨htarget, hlen₁⟩ := h₁
  rw [Parser.run_here_bind]
  refine Yields.acceptElse hs₁ (fun s₂ hs₂ hgrows₂ hlen₂ => ?_) (Yields.pure hs₁ ⟨htarget, hlen₁⟩)
  split
  · rename_i hlvalue
    refine Yields.bind (h.assign s₂ hs₂ (by omega)) ?_
    intro value s₃ hs₃ hgrows₃ h₃
    obtain ⟨hvalue, hlen₃⟩ := h₃
    refine Yields.ofRejection hs₃ fun e he => ⟨?_, by omega⟩
    exact D.assign (D.grows htarget (hgrows₂.trans hgrows₃)) hvalue hlvalue he
  · exact Yields.reject hs₂

theorem ExpressionSpecs.chain_succ (h : D.ExpressionSpecs budget) {level : Level} (hs : D.Inv s)
    (hb : 16 * s.rest.length + level.rank + 1 ≤ budget + 1) :
    D.ReadsTree s ((Parser.chain (budget + 1) level).run s) := by
  rw [Parser.chain]
  refine Yields.bind (h.operand s level hs (by omega)) ?_
  intro first s₁ hs₁ _ h₁
  obtain ⟨hfirst, hlen₁⟩ := h₁
  refine (h.chainFrom s₁ level first hs₁ hfirst (by omega)).mono ?_
  intro e s₂ _ hgrows₂ he
  exact ⟨he, by have := hgrows₂.length_le; omega⟩

theorem ExpressionSpecs.operand_succ (h : D.ExpressionSpecs budget) {level : Level} (hs : D.Inv s)
    (hb : 16 * s.rest.length + level.rank ≤ budget + 1) :
    D.ReadsTree s ((Parser.operand (budget + 1) level).run s) := by
  rw [Parser.operand]
  split
  · rename_i tighter htighter
    have hrank : tighter.rank + 2 = level.rank := by
      cases level <;> cases htighter <;> rfl
    exact h.chain s tighter hs (by omega)
  · rename_i hnone
    have hrank : level.rank = 5 := by
      cases level <;> first | rfl | cases hnone
    exact h.unary s hs (by omega)

theorem ExpressionSpecs.chainFrom_succ (h : D.ExpressionSpecs budget) {level : Level} {lhs : Expr}
    (hs : D.Inv s) (hlhs : D.Tree s lhs) (hb : 16 * s.rest.length + 1 ≤ budget + 1) :
    D.Yields s (fun e s' => D.Tree s' e) ((Parser.chainFrom (budget + 1) level lhs).run s) := by
  rw [Parser.chainFrom]
  rw [Parser.run_current_bind]
  split
  · rename_i op hop
    have his : s.current.is op.symbol := by
      have hsome := List.find?_some hop
      exact hsome
    obtain ⟨ts, hrest⟩ := State.rest_of_is his
    have hrank : level.rank ≤ 11 := by cases level <;> decide
    refine Yields.bind (Yields.advance hs hrest) ?_
    intro _ s₁ hs₁ hgrows₁ hlen₁
    refine Yields.bind (h.operand s₁ level hs₁ (by omega)) ?_
    intro rhs s₂ hs₂ hgrows₂ h₂
    obtain ⟨hrhs, hlen₂⟩ := h₂
    have hlhs₂ := D.grows hlhs (hgrows₁.trans hgrows₂)
    refine Yields.bind (build_yields op hs₂ hlhs₂ hrhs) ?_
    intro node s₃ hs₃ _ h₃
    obtain ⟨hnode, hrest₃⟩ := h₃
    exact h.chainFrom s₃ level node hs₃ hnode (by rw [hrest₃]; omega)
  · exact Yields.pure hs hlhs

/-- A sign or an address operator in front of an operand. -/
theorem ExpressionSpecs.prefixed (h : D.ExpressionSpecs budget) {s' : State} {op : UnaryOp}
    {loc : Loc} (hs : D.Inv s') (hlen : s'.rest.length < s.rest.length)
    (hb : 16 * s.rest.length + 4 ≤ budget + 1) (hop : op ≠ .addr) :
    D.Yields s' (fun e s'' => D.Tree s'' e ∧ s''.rest.length < s.rest.length)
      ((Parser.unary budget >>= fun operand =>
        Parser.ofRejection (Expr.mkUnary op operand loc)).run s') := by
  refine Yields.bind (h.unary s' hs (by omega)) ?_
  intro operand s₁ hs₁ _ h₁
  obtain ⟨hoperand, hlen₁⟩ := h₁
  exact Yields.within (mkUnary_yields hs₁ hoperand fun haddr => absurd haddr hop) (by omega)

theorem ExpressionSpecs.unary_succ (h : D.ExpressionSpecs budget) (hs : D.Inv s)
    (hb : 16 * s.rest.length + 4 ≤ budget + 1) :
    D.ReadsTree s ((Parser.unary (budget + 1)).run s) := by
  rw [Parser.unary]
  rw [Parser.run_here_bind]
  refine Yields.acceptElse hs (fun s₁ hs₁ _ hlen₁ => ?_) ?_
  · refine (h.unary s₁ hs₁ (by omega)).mono ?_
    intro e s₂ _ _ h₂
    exact ⟨h₂.1, by omega⟩
  refine Yields.acceptElse hs (fun s₁ hs₁ _ hlen₁ => h.prefixed hs₁ hlen₁ hb (by decide)) ?_
  refine Yields.acceptElse hs (fun s₁ hs₁ _ hlen₁ => ?_) ?_
  · refine Yields.bind (h.unary s₁ hs₁ (by omega)) ?_
    intro operand s₂ hs₂ _ h₂
    obtain ⟨hoperand, hlen₂⟩ := h₂
    split
    · rename_i hlvalue
      exact Yields.within (mkUnary_yields hs₂ hoperand fun _ => hlvalue) (by omega)
    · exact Yields.reject hs₂
  refine Yields.acceptElse hs (fun s₁ hs₁ _ hlen₁ => h.prefixed hs₁ hlen₁ hb (by decide)) ?_
  exact h.subscripted s hs (by omega)

theorem ExpressionSpecs.subscripted_succ (h : D.ExpressionSpecs budget) (hs : D.Inv s)
    (hb : 16 * s.rest.length + 3 ≤ budget + 1) :
    D.ReadsTree s ((Parser.subscripted (budget + 1)).run s) := by
  rw [Parser.subscripted]
  refine Yields.bind (h.primary s hs (by omega)) ?_
  intro first s₁ hs₁ _ h₁
  obtain ⟨hfirst, hlen₁⟩ := h₁
  refine (h.subscripts s₁ first hs₁ hfirst (by omega)).mono ?_
  intro e s₂ _ hgrows₂ he
  exact ⟨he, by have := hgrows₂.length_le; omega⟩

theorem ExpressionSpecs.subscripts_succ (h : D.ExpressionSpecs budget) {base : Expr} (hs : D.Inv s)
    (hbase : D.Tree s base) (hb : 16 * s.rest.length + 1 ≤ budget + 1) :
    D.Yields s (fun e s' => D.Tree s' e) ((Parser.subscripts (budget + 1) base).run s) := by
  rw [Parser.subscripts]
  rw [Parser.run_here_bind]
  refine Yields.acceptElse hs (fun s₁ hs₁ hgrows₁ hlen₁ => ?_) (Yields.pure hs hbase)
  refine Yields.bind (h.assign s₁ hs₁ (by omega)) ?_
  intro index s₂ hs₂ hgrows₂ h₂
  obtain ⟨hindex, hlen₂⟩ := h₂
  refine Yields.bind (Yields.expect "]" hs₂) ?_
  intro _ s₃ hs₃ hgrows₃ hlen₃
  have hbase₃ := D.grows hbase ((hgrows₁.trans hgrows₂).trans hgrows₃)
  have hindex₃ := D.grows hindex hgrows₃
  refine Yields.bind (build_yields .add hs₃ hbase₃ hindex₃) ?_
  intro address s₄ hs₄ _ h₄
  obtain ⟨haddress, hrest₄⟩ := h₄
  refine Yields.bind (mkUnary_yields hs₄ haddress (by simp)) ?_
  intro element s₅ hs₅ _ h₅
  obtain ⟨helement, hrest₅⟩ := h₅
  exact h.subscripts s₅ element hs₅ helement (by rw [hrest₅, hrest₄]; omega)

theorem ExpressionSpecs.arguments_succ (h : D.ExpressionSpecs budget) (hs : D.Inv s)
    (hb : 16 * s.rest.length + 14 ≤ budget + 1) :
    D.Yields s (fun es s' => (∀ e ∈ es, D.Tree s' e) ∧ s'.rest.length < s.rest.length)
      ((Parser.arguments (budget + 1)).run s) := by
  rw [Parser.arguments]
  refine Yields.bind (h.assign s hs (by omega)) ?_
  intro arg s₁ hs₁ _ h₁
  obtain ⟨harg, hlen₁⟩ := h₁
  refine Yields.acceptElse hs₁ (fun s₂ hs₂ hgrows₂ hlen₂ => ?_) ?_
  · refine Yields.pure hs₂ ⟨?_, by omega⟩
    exact List.forall_mem_singleton.2 (D.grows harg hgrows₂)
  · refine Yields.bind (Yields.expect "," hs₁) ?_
    intro _ s₂ hs₂ hgrows₂ hlen₂
    refine Yields.bind (h.arguments s₂ hs₂ (by omega)) ?_
    intro more s₃ hs₃ hgrows₃ h₃
    obtain ⟨hmore, hlen₃⟩ := h₃
    refine Yields.pure hs₃ ⟨?_, by omega⟩
    exact List.forall_mem_cons.2 ⟨D.grows harg (hgrows₂.trans hgrows₃), hmore⟩

theorem ExpressionSpecs.primary_succ (h : D.ExpressionSpecs budget) (hs : D.Inv s)
    (hb : 16 * s.rest.length + 2 ≤ budget + 1) :
    D.ReadsTree s ((Parser.primary (budget + 1)).run s) := by
  rw [Parser.primary]
  rw [Parser.run_current_bind]
  refine Yields.acceptElse hs (fun s₁ hs₁ _ hlen₁ => ?_) ?_
  · refine Yields.bind (h.assign s₁ hs₁ (by omega)) ?_
    intro inner s₂ hs₂ _ h₂
    obtain ⟨hinner, hlen₂⟩ := h₂
    refine Yields.bind (Yields.expect ")" hs₂) ?_
    intro _ s₃ hs₃ hgrows₃ hlen₃
    exact Yields.pure hs₃ ⟨D.grows hinner hgrows₃, by omega⟩
  refine Yields.acceptElse hs (fun s₁ hs₁ _ hlen₁ => ?_) ?_
  · refine Yields.bind (h.unary s₁ hs₁ (by omega)) ?_
    intro operand s₂ hs₂ _ h₂
    obtain ⟨hoperand, hlen₂⟩ := h₂
    refine Yields.bind (sizeof_yields hs₂ hoperand) ?_
    intro size s₃ hs₃ _ h₃
    exact Yields.pure hs₃ ⟨h₃.1 _, by rw [h₃.2]; omega⟩
  split
  · rename_i hkind
    obtain ⟨ts, hrest⟩ := State.rest_of_kind_ne (s := s) (by rw [hkind]; decide)
    refine Yields.bind (Yields.advance hs hrest) ?_
    intro _ s₁ hs₁ _ hlen₁
    refine Yields.acceptElse hs₁ (fun s₂ hs₂ _ hlen₂ => ?_) ?_
    · refine Yields.acceptElse hs₂ (fun s₃ hs₃ _ hlen₃ => ?_) ?_
      · exact Yields.within (callOf_yields hs₃ (List.forall_mem_nil _)) (by omega)
      · refine Yields.bind (h.arguments s₂ hs₂ (by omega)) ?_
        intro args s₃ hs₃ _ h₃
        obtain ⟨hargs, hlen₃⟩ := h₃
        exact Yields.within (callOf_yields hs₃ hargs) (by omega)
    · exact Yields.within (variableOf_yields hs₁) (by omega)
  split
  · refine Yields.bind (Yields.number hs) ?_
    intro v s₁ hs₁ _ h₁
    exact Yields.pure hs₁ ⟨D.num h₁.1, h₁.2⟩
  · exact Yields.reject hs

end

/-! ## All of them -/

theorem expressionSpecs (D : Discipline) (budget : Nat) : D.ExpressionSpecs budget := by
  induction budget with
  | zero =>
    have hrank (level : Level) : 0 < level.rank := by cases level <;> decide
    constructor
    case operand =>
      intro s level _ hb
      have := hrank level
      omega
    all_goals
      intros
      omega
  | succ budget ih =>
    exact {
      assign := fun s hs hb => ih.assign_succ hs hb
      chain := fun s level hs hb => ih.chain_succ hs hb
      operand := fun s level hs hb => ih.operand_succ hs hb
      chainFrom := fun s level lhs hs hlhs hb => ih.chainFrom_succ hs hlhs hb
      unary := fun s hs hb => ih.unary_succ hs hb
      subscripted := fun s hs hb => ih.subscripted_succ hs hb
      subscripts := fun s base hs hbase hb => ih.subscripts_succ hs hbase hb
      primary := fun s hs hb => ih.primary_succ hs hb
      arguments := fun s hs hb => ih.arguments_succ hs hb }

/-- An expression is read. -/
theorem Yields.expression {D : Discipline} {s : State} (hs : D.Inv s) :
    D.ReadsTree s (Parser.expression.run s) := by
  unfold Parser.expression
  rw [Parser.run_get_bind]
  refine (D.expressionSpecs _).assign s hs ?_
  unfold Parser.expressionBudget
  omega

end Discipline

end WordC.Parse
