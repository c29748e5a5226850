import WordC.Proofs.Evaluation
import WordC.Proofs.Tree
import WordC.Tree.Typing

/-!
# The laws of pointer arithmetic

A sum of a pointer and an integer and a difference of pointers are written in elements and computed
in bytes. The size of an element is taken from the pointer in a sum, from the sum in a difference,
and the type of the sum is the decayed type of the pointer: the laws hold because decay keeps what
is pointed at.

* `World.Observes`: an evaluation that changes nothing; `Expr.EffectFree`: an expression without
  assignments and calls. The evaluation of such an expression only observes.
* `Expr.stepped`: the tree of a step from a pointer. `Expr.eval_sum`, `eval_back`, `eval_count`: the
  three laws, for a pointer and an integer that have values.
* `Expr.pointer_arithmetic`: the laws together, and which operands have no sum or no difference.
-/
namespace WordC

/-! ## Sizes of elements -/

namespace Ty

variable {ty elem : Ty}

theorem size_fits {n : Int} (h : ty.size = .ok n) : Word.Fits n := by
  cases ty with
  | int | ptr base | func ret =>
    cases h
    decide
  | array base len =>
    obtain ⟨m, -, hm⟩ := Word.bind_eq_ok_iff.1 h
    obtain ⟨hfits, rfl⟩ := Word.check_eq_ok_iff.1 hm
    exact hfits

theorem isPointer_of_base (h : ty.base? = some elem) : ty.isPointer = true := by
  cases ty with
  | int | func ret => cases h
  | ptr base | array base len => rfl

theorem stride_of_base (h : ty.base? = some elem) : ty.stride = elem.size := by
  unfold stride
  rw [h]

/-- Decay keeps what is pointed at. -/
theorem base_decay (ty : Ty) : ty.decay.base? = ty.base? := by
  cases ty <;> rfl

end Ty

/-! ## Words -/

namespace Quad

theorem toInt_ofInt {n : Int} (h : Word.Fits n) : (BitVec.ofInt 64 n).toInt = n :=
  BitVec.toInt_ofInt_eq_self (by decide) h.1 (Int.lt_add_one_of_le h.2)

/-- Counting elements undoes scaling by their size, unless scaling wrapped around. -/
theorem div_scaled {i : Quad} {size : Int} (hpos : 1 ≤ size) (hsize : Word.Fits size)
    (hscaled : Word.Fits (i.toInt * size)) :
    BinaryOp.div.apply (i * BitVec.ofInt 64 size) (BitVec.ofInt 64 size) = some i := by
  have hdivisor := toInt_ofInt hsize
  have hzero : BitVec.ofInt 64 size ≠ 0#64 := by
    intro h
    rw [h] at hdivisor
    simp only [BitVec.toInt_zero] at hdivisor
    omega
  have hminus : BitVec.ofInt 64 size ≠ -1#64 := by
    intro h
    rw [h] at hdivisor
    have : (-1#64).toInt = -1 := by decide
    omega
  have hproduct : (i * BitVec.ofInt 64 size).toInt = i.toInt * size := by
    calc (i * BitVec.ofInt 64 size).toInt
        = (BitVec.ofInt 64 (i.toInt * size)).toInt := by
          rw [BitVec.ofInt_mul, BitVec.ofInt_toInt]
      _ = i.toInt * size := toInt_ofInt hscaled
  have hquotient : ((i * BitVec.ofInt 64 size).sdiv (BitVec.ofInt 64 size)).toInt = i.toInt := by
    rw [BitVec.toInt_sdiv_of_ne_or_ne _ _ (.inr hminus), hproduct, hdivisor]
    exact Int.mul_tdiv_cancel _ (by omega)
  simp only [BinaryOp.apply, hzero, hminus, and_false, or_self, if_false]
  exact congrArg some (BitVec.eq_of_toInt_eq hquotient)

end Quad

/-! ## Evaluations that change nothing -/

namespace World

variable {W : World} {α β : Type}

/-- The situation is afterwards what it was before. -/
def Observes (m : W.Eval α) : Prop := ∀ σ a σ', m σ = some (a, σ') → σ' = σ

namespace Observes

theorem pure (a : α) : Observes (Pure.pure a : W.Eval α) := by
  intro σ a' σ' h
  cases h
  rfl

theorem bind {m : W.Eval α} {f : α → W.Eval β} (hm : Observes m) (hf : ∀ a, Observes (f a)) :
    Observes (m >>= f) := by
  intro σ b σ' h
  obtain ⟨⟨a, σ₁⟩, ha, hb⟩ := Option.bind_eq_some_iff.1 h
  obtain rfl := hm σ a σ₁ ha
  exact hf a σ₁ b σ' hb

theorem lift (x : Option α) : Observes (StateT.lift x : W.Eval α) := by
  intro σ a σ' h
  obtain ⟨a', -, h⟩ := Option.bind_eq_some_iff.1 h
  cases h
  rfl

theorem fetch (ty : Ty) (a : Quad) : Observes (W.fetch ty a) := by
  unfold World.fetch
  split
  · exact pure a
  · intro σ v σ' h
    unfold World.read at h
    split at h <;> cases h
    rfl

end Observes

end World

/-! ## Expressions without effects -/

namespace Expr

variable {W : World} {base : Quad} {σ : W.Situation} {e lhs rhs : Expr} {op : BinaryOp} {ty : Ty}
  {loc : Loc}

/-- Only assignments and calls change the situation. -/
def isEffect : Expr → Bool
  | assign _ _ _ _ => true
  | call _ _ _ _ => true
  | _ => false

/-- No node is an assignment or a call. -/
def EffectFree (e : Expr) : Prop := ∀ n ∈ e.nodes, n.isEffect = false

instance (e : Expr) : Decidable e.EffectFree := inferInstanceAs (Decidable (∀ n ∈ e.nodes, _))

theorem effectFree_iff : e.EffectFree ↔ e.isEffect = false ∧ ∀ c ∈ e.children, c.EffectFree := by
  constructor
  · intro h
    exact ⟨h e (mem_nodes.2 (.inl rfl)), fun c hc n hn => h n (mem_nodes.2 (.inr ⟨c, hc, hn⟩))⟩
  · rintro ⟨hroot, hchildren⟩ n hn
    rcases mem_nodes.1 hn with rfl | ⟨c, hc, hn⟩
    · exact hroot
    · exact hchildren c hc n hn

theorem effectFree_num (value : Int) : (num value ty loc).EffectFree :=
  effectFree_iff.2 ⟨rfl, List.forall_mem_nil _⟩

theorem effectFree_unary {uop : UnaryOp} :
    (unary uop e ty loc).EffectFree ↔ e.EffectFree := by
  rw [effectFree_iff]
  simp [isEffect, children]

theorem effectFree_binary :
    (binary op lhs rhs ty loc).EffectFree ↔ lhs.EffectFree ∧ rhs.EffectFree := by
  rw [effectFree_iff]
  simp [isEffect, children]

/-- Value and address are taken together because each is the other's of an operand. -/
theorem EffectFree.observes_both (h : e.EffectFree) :
    World.Observes (e.eval W base) ∧ World.Observes (e.evalAddress W base) := by
  have nowhere : World.Observes (fun _ => none : W.Eval Quad) := fun _ _ _ h => by cases h
  induction e with
  | num value ty loc => exact ⟨.pure _, nowhere⟩
  | var v ty loc => exact ⟨.fetch ty _, .pure _⟩
  | unary op operand ty loc ih =>
    obtain ⟨hvalue, haddress⟩ := ih (effectFree_unary.1 h)
    cases op with
    | neg => exact ⟨hvalue.bind fun _ => .pure _, nowhere⟩
    | addr => exact ⟨haddress, nowhere⟩
    | deref => exact ⟨hvalue.bind (.fetch ty), hvalue⟩
  | binary op lhs rhs ty loc ihl ihr =>
    obtain ⟨hl, hr⟩ := effectFree_binary.1 h
    exact ⟨(ihr hr).1.bind fun _ => (ihl hl).1.bind fun _ => .lift _, nowhere⟩
  | assign lhs rhs ty loc => cases (effectFree_iff.1 h).1
  | call callee args ty loc => cases (effectFree_iff.1 h).1

theorem EffectFree.observes (h : e.EffectFree) : World.Observes (e.eval W base) := h.observes_both.1

/-- Operands without effects may be taken in the same situation. -/
theorem eval_binary {x y : Quad} (hl : lhs.eval W base σ = some (x, σ))
    (hr : rhs.eval W base σ = some (y, σ)) :
    (binary op lhs rhs ty loc).eval W base σ = (op.apply x y).map (·, σ) := by
  simp only [eval, bind, StateT.bind, hl, hr, StateT.lift, Option.bind_some]
  cases op.apply x y <;> rfl

/-- Where the right operand has no effects, both operands have a value if the operation has. -/
theorem isSome_of_eval_binary (hr : rhs.EffectFree)
    (h : ((binary op lhs rhs ty loc).eval W base σ).isSome) :
    (lhs.eval W base σ).isSome ∧ (rhs.eval W base σ).isSome := by
  obtain ⟨_, hvalue⟩ := Option.isSome_iff_exists.1 h
  obtain ⟨⟨y, σ₁⟩, hy, hrest⟩ := Option.bind_eq_some_iff.1 hvalue
  obtain rfl := hr.observes σ y σ₁ hy
  obtain ⟨x, hx, -⟩ := Option.bind_eq_some_iff.1 hrest
  exact ⟨Option.isSome_of_eq_some hx, Option.isSome_of_eq_some hy⟩

/-! ## The laws -/

section

variable {p n : Expr} {elem : Ty} {size : Int} {a i : Quad}

/-- `p op n`, where `n` counts elements of the given size. -/
def stepped (op : BinaryOp) (p n : Expr) (size : Int) (loc : Loc) : Expr :=
  mkBinary op p (mkBinary .mul n (mkNum size loc) loc) loc

theorem step_eq (h : p.ty.stride = .ok size) : step op p n loc = .ok (stepped op p n size loc) := by
  unfold step scale
  rw [h]
  rfl

/-- A step from a pointer points at what the pointer points at. -/
theorem base_sum : (stepped .add p n size loc).ty.base? = p.ty.base? := Ty.base_decay p.ty

theorem plus_left (hp : p.ty.isPointer = true) (hn : n.ty.isPointer = false)
    (h : p.ty.stride = .ok size) : plus p n loc = .ok (stepped .add p n size loc) := by
  unfold plus
  rw [hp, hn]
  exact step_eq h

theorem plus_right (hp : p.ty.isPointer = true) (hn : n.ty.isPointer = false)
    (h : p.ty.stride = .ok size) : plus n p loc = .ok (stepped .add p n size loc) := by
  unfold plus
  rw [hp, hn]
  exact step_eq h

theorem minus_left (hp : p.ty.isPointer = true) (hn : n.ty.isPointer = false)
    (h : p.ty.stride = .ok size) : minus p n loc = .ok (stepped .sub p n size loc) := by
  unfold minus
  rw [hp, hn]
  exact step_eq h

theorem minus_pointers (hl : lhs.ty.isPointer = true) (hr : rhs.ty.isPointer = true)
    (h : lhs.ty.stride = .ok size) :
    minus lhs rhs loc = .ok (mkBinary .div (binary .sub lhs rhs .int loc) (mkNum size loc) loc) := by
  unfold minus distance
  rw [hl, hr, h]

theorem eval_stepped (hp : p.eval W base σ = some (a, σ)) (hn : n.eval W base σ = some (i, σ)) :
    (stepped op p n size loc).eval W base σ =
      (op.apply a (i * BitVec.ofInt 64 size)).map (·, σ) :=
  eval_binary hp (eval_binary hn rfl)

theorem eval_sum (hp : p.eval W base σ = some (a, σ)) (hn : n.eval W base σ = some (i, σ)) :
    (stepped .add p n size loc).eval W base σ = some (a + i * BitVec.ofInt 64 size, σ) :=
  eval_stepped hp hn

/-- A step has a value exactly if both operands have one. -/
theorem isSome_eval_step (hp : p.EffectFree) (hn : n.EffectFree) :
    ((stepped .add p n size loc).eval W base σ).isSome ↔
      (p.eval W base σ).isSome ∧ (n.eval W base σ).isSome := by
  constructor
  · intro h
    obtain ⟨hpointer, hbytes⟩ :=
      isSome_of_eval_binary (effectFree_binary.2 ⟨hn, effectFree_num size⟩) h
    exact ⟨hpointer, (isSome_of_eval_binary (effectFree_num size) hbytes).1⟩
  · rintro ⟨hpointer, hindex⟩
    obtain ⟨⟨a, σ₁⟩, ha⟩ := Option.isSome_iff_exists.1 hpointer
    obtain ⟨⟨i, σ₂⟩, hi⟩ := Option.isSome_iff_exists.1 hindex
    obtain rfl := hp.observes σ a σ₁ ha
    obtain rfl := hn.observes σ₁ i σ₂ hi
    rw [eval_sum ha hi]
    rfl

/-- Stepping back by as many elements undoes a step. -/
theorem eval_back {loc' : Loc} (hp : p.eval W base σ = some (a, σ))
    (hn : n.eval W base σ = some (i, σ)) :
    (stepped .sub (stepped .add p n size loc) n size loc').eval W base σ = some (a, σ) := by
  rw [eval_stepped (eval_sum hp hn) hn]
  simp only [BinaryOp.apply, Option.map_some, BitVec.add_sub_cancel]

/-- The elements between a pointer and a step from it are those of the step, unless their bytes
wrapped around. -/
theorem eval_count {loc' : Loc} (hpos : 1 ≤ size) (hsize : Word.Fits size)
    (hp : p.eval W base σ = some (a, σ)) (hn : n.eval W base σ = some (i, σ))
    (hfits : Word.Fits (i.toInt * size)) :
    (mkBinary .div (binary .sub (stepped .add p n size loc) p .int loc') (mkNum size loc') loc').eval
      W base σ = some (i, σ) := by
  have hbytes : (binary .sub (stepped .add p n size loc) p .int loc').eval W base σ =
      some (i * BitVec.ofInt 64 size, σ) := by
    rw [eval_binary (eval_sum hp hn) hp]
    simp only [BinaryOp.apply, Option.map_some, BitVec.add_comm a, BitVec.add_sub_cancel]
  calc _ = (BinaryOp.div.apply (i * BitVec.ofInt 64 size) (BitVec.ofInt 64 size)).map (·, σ) :=
        eval_binary hbytes rfl
    _ = some (i, σ) := by rw [Quad.div_scaled hpos hsize hfits]; rfl

theorem plus_rejected (hl : lhs.ty.isPointer = true) (hr : rhs.ty.isPointer = true) :
    plus lhs rhs loc = .error (.rejected ⟨loc, .invalidSum⟩) := by
  unfold plus
  rw [hl, hr]

theorem minus_rejected_iff : (∃ r, minus lhs rhs loc = .error (.rejected r)) ↔
    lhs.ty.isPointer = false ∧ rhs.ty.isPointer = true := by
  unfold minus step scale distance
  cases lhs.ty.isPointer <;> cases rhs.ty.isPointer <;> cases lhs.ty.stride <;>
    simp [bind, Except.bind, pure, Except.pure]

theorem minus_ok_iff (h : lhs.ty.stride = .ok size) : (∃ e, minus lhs rhs loc = .ok e) ↔
    ¬ (lhs.ty.isPointer = false ∧ rhs.ty.isPointer = true) := by
  unfold minus step scale distance
  rw [h]
  cases lhs.ty.isPointer <;> cases rhs.ty.isPointer <;> simp [bind, Except.bind, pure, Except.pure]

/-- **The laws of pointer arithmetic.** Let `p` point to elements of a size that is at least one, and
let `n` be an integer, both without assignments and calls. Then `p + n` and `n + p` are one tree. It has
the decayed type of `p` and a value whenever both operands have one: the address `n` elements behind
`p`. From there, `n` elements back is `p`, and the distance from `p` is the integer `n`, if the bytes
of `n` elements are a word. Two pointers have no sum, and only an integer and a pointer have no
difference. -/
theorem pointer_arithmetic (hbase : p.ty.base? = some elem) (hsize : elem.size = .ok size)
    (hpos : 1 ≤ size) (hint : n.ty = .int) (hp : p.EffectFree) (hn : n.EffectFree) (loc loc' : Loc) :
    (∃ sum back count,
      plus p n loc = .ok sum ∧ plus n p loc = .ok sum ∧ sum.ty = p.ty.decay ∧
      minus sum n loc' = .ok back ∧ minus sum p loc' = .ok count ∧ count.ty = .int ∧
      ∀ (W : World) (base : Quad) (σ : W.Situation),
        ((sum.eval W base σ).isSome ↔ (p.eval W base σ).isSome ∧ (n.eval W base σ).isSome) ∧
        ∀ a i σ₁ σ₂, p.eval W base σ = some (a, σ₁) → n.eval W base σ = some (i, σ₂) →
          sum.eval W base σ = some (a + i * BitVec.ofInt 64 size, σ) ∧
          back.eval W base σ = some (a, σ) ∧
          (Word.Fits (i.toInt * size) → count.eval W base σ = some (i, σ))) ∧
    (∀ lhs rhs : Expr, lhs.ty.isPointer → rhs.ty.isPointer →
      plus lhs rhs loc = .error (.rejected ⟨loc, .invalidSum⟩)) ∧
    ∀ lhs rhs : Expr,
      ((∃ r, minus lhs rhs loc = .error (.rejected r)) ↔
        lhs.ty.isPointer = false ∧ rhs.ty.isPointer = true) ∧
      ∀ bytes, lhs.ty.stride = .ok bytes → ((∃ e, minus lhs rhs loc = .ok e) ↔
        ¬ (lhs.ty.isPointer = false ∧ rhs.ty.isPointer = true)) := by
  have hpointer := Ty.isPointer_of_base hbase
  have hplain : n.ty.isPointer = false := by rw [hint]; rfl
  have hstride : p.ty.stride = .ok size := (Ty.stride_of_base hbase).trans hsize
  have hsum : (stepped .add p n size loc).ty.base? = some elem := base_sum.trans hbase
  have hsumPointer := Ty.isPointer_of_base hsum
  have hsumStride : (stepped .add p n size loc).ty.stride = .ok size :=
    (Ty.stride_of_base hsum).trans hsize
  refine ⟨⟨_, _, _, plus_left hpointer hplain hstride, plus_right hpointer hplain hstride, rfl,
    minus_left hsumPointer hplain hsumStride, minus_pointers hsumPointer hpointer hsumStride, rfl,
    fun W base σ => ⟨isSome_eval_step hp hn, fun a i σ₁ σ₂ ha hi => ?_⟩⟩,
    fun lhs rhs => plus_rejected, fun lhs rhs => ⟨minus_rejected_iff, fun bytes => minus_ok_iff⟩⟩
  obtain rfl := hp.observes σ a σ₁ ha
  obtain rfl := hn.observes σ₁ i σ₂ hi
  exact ⟨eval_sum ha hi, eval_back ha hi, eval_count hpos (Ty.size_fits hsize) ha hi⟩

end

/-- The rows of `int m[2][3]`, the array being the only variable of its frame. -/
def rows : Expr := mkVar (.frame ⟨"m", .array (.array .int 3) 2, -48⟩) ⟨1, 1⟩

theorem rows_arithmetic :
    rows.ty.base? = some (.array .int 3) ∧ (Ty.array .int 3).size = .ok 24 ∧
    ∃ sum back count, plus rows (mkNum 2 ⟨1, 5⟩) ⟨1, 3⟩ = .ok sum ∧ sum.ty = .ptr (.array .int 3) ∧
      minus sum (mkNum 2 ⟨1, 5⟩) ⟨1, 7⟩ = .ok back ∧ minus sum rows ⟨1, 7⟩ = .ok count ∧
      ∀ (W : World) (base : Quad) (σ : W.Situation),
        sum.eval W base σ = some (base + BitVec.ofInt 64 (-48) + 2#64 * BitVec.ofInt 64 24, σ) ∧
        back.eval W base σ = some (base + BitVec.ofInt 64 (-48), σ) ∧
        count.eval W base σ = some (2#64, σ) := by
  have hsize : (Ty.array .int 3).size = .ok 24 := by decide
  obtain ⟨⟨sum, back, count, hsum, -, hty, hback, hcount, -, hvalues⟩, -⟩ :=
    pointer_arithmetic (p := rows) (n := mkNum 2 ⟨1, 5⟩) rfl hsize (by decide) rfl (by decide)
      (by decide) ⟨1, 3⟩ ⟨1, 7⟩
  refine ⟨rfl, hsize, sum, back, count, hsum, hty, hback, hcount, fun W base σ => ?_⟩
  obtain ⟨hs, hb, hc⟩ := (hvalues W base σ).2 _ _ σ σ rfl rfl
  exact ⟨hs, hb, hc (by decide)⟩

end Expr

end WordC
