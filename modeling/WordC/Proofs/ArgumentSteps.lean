import WordC.Proofs.Arity
import WordC.Proofs.ElementSizes

/-!
# Arguments that are stepped alike

An argument is accepted without a caution if its type is compatible with that of its parameter. The
caller counts the elements behind it by the size of what the argument points to, the callee by the size
of what the parameter points to. Compatibility takes arrays for pointers at every depth and does not
look at lengths, so the two sizes can differ: of types that arise in a text, they agree exactly if both
elements take as many words.

* `Argument.mem_mismatches`: the cautions about the arguments of a call.
* `Expr.eval_next`: the address of the next element.
* `accepted_argument_steps`: when caller and callee step an accepted argument to the same address.
* `rows_passed_silently`: the rows of an array, passed for pointers.
-/
namespace WordC

/-- There is a caution about each argument that is not compatible with its parameter, and about no
other. -/
theorem Argument.mem_mismatches {callee : String} {issue : Issue} {args : List Argument} :
    ∀ {index : Nat} {params : List Ty}, issue ∈ mismatches callee index args params ↔
      ∃ i arg param, args[i]? = some arg ∧ params[i]? = some param ∧ ¬arg.ty.compatible param ∧
        issue = .caution arg.loc (.argumentMismatch (index + i) callee param arg.ty) := by
  induction args with
  | nil => simp [mismatches]
  | cons arg args ih =>
    intro index params
    cases params with
    | nil => simp [mismatches]
    | cons param params =>
      -- The arguments behind the first one are counted from the next number on.
      have hshift (i : Nat) : index + 1 + i = index + (i + 1) := by omega
      have hmem : issue ∈ mismatches callee index (arg :: args) (param :: params) ↔
          (¬arg.ty.compatible param ∧
            issue = .caution arg.loc (.argumentMismatch index callee param arg.ty)) ∨
          issue ∈ mismatches callee (index + 1) args params := by
        rw [mismatches]
        split <;> simp_all
      rw [hmem, ih]
      constructor
      · rintro (⟨hfirst, rfl⟩ | ⟨i, arg', param', harg, hparam, hother, rfl⟩)
        · exact ⟨0, arg, param, rfl, rfl, hfirst, rfl⟩
        · exact ⟨i + 1, arg', param', harg, hparam, hother, by rw [hshift]⟩
      · rintro ⟨i, arg', param', harg, hparam, hother, rfl⟩
        cases i with
        | zero =>
          cases harg
          cases hparam
          exact .inl ⟨hother, rfl⟩
        | succ i => exact .inr ⟨i, arg', param', harg, hparam, hother, by rw [hshift]⟩

namespace Expr

variable {W : World} {base v : Quad} {σ σ' : W.Situation} {p : Expr} {size : Int} {loc : Loc}

/-- The next element, wherever the pointer comes from. -/
theorem eval_next (index : Loc) (h : p.eval W base σ = some (v, σ')) :
    (stepped .add p (mkNum 1 index) size loc).eval W base σ =
      some (v + BitVec.ofInt 64 size, σ') := by
  have hbytes : (mkBinary .mul (mkNum 1 index) (mkNum size loc) loc).eval W base σ =
      some (BitVec.ofInt 64 size, σ) := by
    rw [mkBinary, eval_binary rfl rfl]
    simp [BinaryOp.apply]
  rw [stepped, mkBinary]
  simp only [eval, bind, StateT.bind, hbytes, h, StateT.lift, Option.bind_some, BinaryOp.apply]
  rfl

/-- Where the next element is. -/
theorem plus_one {elem : Ty} (index : Loc) (hbase : p.ty.base? = some elem)
    (hsize : elem.size = .ok size) :
    plus p (mkNum 1 index) loc = .ok (stepped .add p (mkNum 1 index) size loc) :=
  plus_left (Ty.isPointer_of_base hbase) rfl ((Ty.stride_of_base hbase).trans hsize)

end Expr

/-- Different numbers in the range of a word are different words. -/
theorem Quad.ofInt_inj {m n : Int} (hm : Word.Fits m) (hn : Word.Fits n) :
    BitVec.ofInt 64 m = BitVec.ofInt 64 n ↔ m = n := by
  constructor
  · intro h
    rw [← Quad.toInt_ofInt hm, h, Quad.toInt_ofInt hn]
  · rintro rfl
    rfl

/-- **When an accepted argument is stepped alike.** Let the type of an argument be compatible with that
of its parameter, so that there is no caution about it, and let both point to something: `x` and `y`.
Then `x` and `y` have equal sizes exactly if their lengths multiply to the same number of words, which
they do if neither is an array. And if an expression `a` of the argument's type in the caller has the
same value as an expression `p` of the parameter's type in the callee, then just in this case are
`a + 1` and `p + 1` the same address. -/
theorem accepted_argument_steps (callee : String) {args : List Argument} {params : List Ty} {i : Nat}
    {arg : Argument} {param x y : Ty} (harg : args[i]? = some arg) (hparam : params[i]? = some param)
    (hargArises : arg.ty.Arises) (hparamArises : param.Arises) (hx : arg.ty.base? = some x)
    (hy : param.base? = some y) (hcompatible : arg.ty.compatible param) :
    (∀ loc expected found, .caution loc (.argumentMismatch (i + 1) callee expected found) ∉
      Argument.mismatches callee 1 args params) ∧
    ∃ m n, x.size = .ok m ∧ y.size = .ok n ∧ (m = n ↔ x.dims.prod = y.dims.prod) ∧
      (x.isArray = false → y.isArray = false → m = n) ∧
      ∀ (a p : Expr) (loc loc' : Loc), a.ty = arg.ty → p.ty = param →
        ∃ a' p', Expr.plus a (.mkNum 1 loc) loc = .ok a' ∧ Expr.plus p (.mkNum 1 loc') loc' = .ok p' ∧
          ∀ (W : World) (base base' v : Quad) (σ σ₁ τ τ₁ : W.Situation),
            a.eval W base σ = some (v, σ₁) → p.eval W base' τ = some (v, τ₁) →
            ∃ u w, a'.eval W base σ = some (u, σ₁) ∧ p'.eval W base' τ = some (w, τ₁) ∧
              (u = w ↔ x.dims.prod = y.dims.prod) := by
  constructor
  · intro loc expected found hmem
    obtain ⟨j, arg', param', harg', hparam', hother, hissue⟩ := Argument.mem_mismatches.1 hmem
    have hj : j = i := by
      injection hissue with _ hcaution
      injection hcaution with hnumber
      omega
    subst hj
    cases harg.symm.trans harg'
    cases hparam.symm.trans hparam'
    exact hother hcompatible
  have hxsize := (hargArises.base hx).size_eq
  have hysize := (hparamArises.base hy).size_eq
  have hwords : 8 * x.dims.prod = 8 * y.dims.prod ↔ x.dims.prod = y.dims.prod := by omega
  refine ⟨_, _, hxsize, hysize, hwords, fun hxscalar hyscalar => ?_, fun a p loc loc' ha hp => ?_⟩
  · rw [Ty.dims_of_scalar hxscalar, Ty.dims_of_scalar hyscalar]
  refine ⟨_, _, Expr.plus_one loc (by rw [ha]; exact hx) hxsize,
    Expr.plus_one loc' (by rw [hp]; exact hy) hysize, fun W base base' v σ σ₁ τ τ₁ hva hvp => ?_⟩
  refine ⟨_, _, Expr.eval_next loc hva, Expr.eval_next loc' hvp, ?_⟩
  rw [BitVec.add_right_inj, Quad.ofInt_inj (Ty.size_fits hxsize) (Ty.size_fits hysize), hwords]

/-- A parameter that is declared as rows of three words. -/
def rowParameter : Expr := .mkVar (.frame ⟨"p", .ptr (.array .int 3), -8⟩) ⟨2, 1⟩

theorem rows_step_alike :
    (Ty.array (.array .int 3) 2).compatible (.ptr (.array .int 3)) ∧
    ∃ a' p', Expr.plus Expr.rows (.mkNum 1 ⟨1, 3⟩) ⟨1, 3⟩ = .ok a' ∧
      Expr.plus rowParameter (.mkNum 1 ⟨2, 3⟩) ⟨2, 3⟩ = .ok p' ∧
      ∀ (W : World) (base base' v : Quad) (σ τ τ₁ : W.Situation),
        Expr.rows.eval W base σ = some (v, σ) → rowParameter.eval W base' τ = some (v, τ₁) →
        ∃ u, a'.eval W base σ = some (u, σ) ∧ p'.eval W base' τ = some (u, τ₁) := by
  have hrow : (Ty.array .int 3).Arises := .array .int (by decide) rfl
  have hrows : (Ty.array (.array .int 3) 2).Arises := .array hrow (by decide) rfl
  have harg : [Argument.mk (.array (.array .int 3) 2) ⟨1, 1⟩][0]? = some ⟨_, ⟨1, 1⟩⟩ := rfl
  have hparam : [Ty.ptr (.array .int 3)][0]? = some (.ptr (.array .int 3)) := rfl
  obtain ⟨-, m, n, -, -, -, -, hsteps⟩ :=
    accepted_argument_steps "f" harg hparam hrows (.ptr hrow) rfl rfl rfl
  obtain ⟨a', p', ha', hp', heval⟩ := hsteps Expr.rows rowParameter ⟨1, 3⟩ ⟨2, 3⟩ rfl rfl
  refine ⟨rfl, a', p', ha', hp', fun W base base' v σ τ τ₁ hva hvp => ?_⟩
  obtain ⟨u, w, hu, hw, hsame⟩ := heval W base base' v σ σ τ τ₁ hva hvp
  exact ⟨u, hu, by rw [hsame.2 rfl]; exact hw⟩

/-- The rows of an array, passed where pointers to words are expected. -/
def rowsPassedSource : String :=
  "int f(int **p) \x7b return p + 1 - p; \x7d int main() \x7b int m[2][3]; return f(m); \x7d"

/-- A row of three words is taken for a pointer to words: nothing is reported, and the caller steps by
24 bytes where the callee steps by eight. -/
theorem rows_passed_silently :
    ∃ c text parsed, compile rowsPassedSource = .ok c ∧ c.assembly = some text ∧ c.issues = [] ∧
      Parse.parse (Source.tokenize rowsPassedSource).tokens = .ok parsed ∧
      (∃ f ∈ parsed.program.functions, ∃ g ∈ parsed.program.functions, ∃ n ∈ g.body.nodes,
        f.params.map Local.ty = [.ptr (.ptr .int)] ∧ n.call? = some (f.name, 1) ∧
        n.children.map Expr.ty = [.array (.array .int 3) 2]) ∧
      (Ty.array (.array .int 3) 2).compatible (.ptr (.ptr .int)) ∧
      (Ty.array (.array .int 3) 2).stride = .ok 24 ∧ (Ty.ptr (.ptr .int)).stride = .ok 8 := by
  obtain ⟨c, text, hcompile, htext⟩ := exists_assembly rowsPassedSource (by decide +kernel)
  obtain ⟨parsed, asm, haccepts, -⟩ := compile_accepts hcompile htext
  have hsilent : ∀ c ∈ (compile rowsPassedSource).toOption, c.issues = [] := by decide +kernel
  have hpassed : ∀ parsed ∈ (Parse.parse (Source.tokenize rowsPassedSource).tokens).toOption,
      ∃ f ∈ parsed.program.functions, ∃ g ∈ parsed.program.functions, ∃ n ∈ g.body.nodes,
        f.params.map Local.ty = [.ptr (.ptr .int)] ∧ n.call? = some (f.name, 1) ∧
        n.children.map Expr.ty = [.array (.array .int 3) 2] := by decide +kernel
  exact ⟨c, text, parsed, hcompile, htext, hsilent c (by rw [hcompile]; rfl), haccepts.parse,
    hpassed parsed (by rw [haccepts.parse]; rfl), rfl, rfl, rfl⟩

end WordC
