import WordC.Proofs.ElementSizes
import WordC.Proofs.Routines

/-!
# Arrays are places

An array is a place in memory. Whatever is computed from it is a word, so no computed value should have
the type of an array: arithmetic decays its operand, an address points to an element, and an array is
never assigned. Only a sign in front of an array keeps its type.

* `Expr.unsigned`: an expression without the signs in front of it.
* `Expr.Typed.array_cases`: the single nodes that can have the type of an array.
* `Expr.WellTyped.unsigned_place`: under its signs, an expression of such a type is a place.
* `typedTrees`: expressions are read well typed wherever reading starts, so operands of `sizeof` are,
  too, of which nothing but the size is left.
* `parse_arrays_placed`: arrays in what was read are places, up to signs.
* `negated_array_kept`: signs do make a difference.
-/
namespace WordC

/-! ## Single nodes -/

namespace Expr

variable {Γ : Context} {e : Expr}

/-- The expression without the signs in front of it. -/
def unsigned : Expr → Expr
  | unary .neg operand _ _ => operand.unsigned
  | e => e

/-- A node of the type of an array is a place, or has a sign in front of an array. -/
theorem Typed.array_cases (h : e.Typed Γ) (harray : e.ty.isArray) :
    e.isLvalue ∨ ∃ operand loc, e = unary .neg operand operand.ty loc := by
  cases e with
  | num value ty loc => cases h; cases harray
  | var v ty loc => exact .inl rfl
  | unary op operand ty loc =>
    cases op with
    | neg => cases h; exact .inr ⟨operand, loc, rfl⟩
    | addr => cases h.2; cases harray
    | deref => exact .inl rfl
  | binary op lhs rhs ty loc =>
    -- Comparisons are words, and all other operators decay.
    have hdecay : lhs.ty.decay.isArray = false := Parse.Ty.isArray_decay lhs.ty
    have hty : ty = .int ∨ ty = lhs.ty.decay := by
      cases op with
      | add => exact .inr h.2.1
      | sub =>
        simp only [Typed] at h
        split at h
        · exact .inl h.2
        · exact .inr h.1
      | mul | div => exact .inr h
      | eq | ne | lt | le => exact .inl h
    rcases hty with rfl | rfl
    · cases harray
    · cases hdecay.symm.trans harray
  | assign lhs rhs ty loc =>
    obtain ⟨-, hscalar, rfl⟩ := h
    cases hscalar.symm.trans harray
  | call callee args ty loc => cases h.1; cases harray

/-- Under the signs in front of an array there is a place of the same type. -/
theorem WellTyped.unsigned_place (h : e.WellTyped Γ) (harray : e.ty.isArray) :
    e.unsigned.isLvalue ∧ e.unsigned.ty = e.ty := by
  induction e using induct_children with
  | node e ih =>
    rcases (h e (mem_nodes_self e)).1.array_cases harray with hplace | ⟨operand, loc, rfl⟩
    · have hself : e.unsigned = e := by
        unfold unsigned
        split
        · cases hplace
        · rfl
      rw [hself]
      exact ⟨hplace, rfl⟩
    · exact ih operand List.mem_cons_self (h.below (mem_nodes_of_child List.mem_cons_self)) harray

end Expr

/-! ## Operands -/

namespace Parse

/-- Reading well-typed trees from any state. -/
def typedTrees : Discipline :=
  { wellTyped with
    Inv := fun _ => True
    value := fun _ _ _ _ => trivial
    name := fun _ _ _ => trivial
    read := fun _ _ => trivial
    record := fun _ _ => trivial
    wait := fun _ _ _ => trivial
    var := fun _ hv => State.typed_var hv
    enter := fun _ => trivial
    declareLocal := fun _ _ _ _ _ _ _ _ => trivial
    offset_fault := fun _ _ _ _ _ _ => trivial
    declare := fun _ _ _ _ _ _ => trivial
    define := fun _ _ _ _ _ => trivial
    declareGlobal := fun _ _ _ _ _ => trivial
    defineFunction := fun _ _ _ _ _ _ _ _ _ _ _ => trivial }

/-- An operand is read well typed, whatever was read before. -/
theorem unary_good {s s' : State} {e : Expr} (h : Routine.unary.parser.run s = .ok e s') :
    e.Good ⟨s'.scope.locals, s'.objects⟩ := by
  have hreads := (typedTrees.expressionSpecs (Routine.unary.need s.rest.length)).unary s trivial
    (Nat.le_refl _)
  have hrun : (Parser.unary (Routine.unary.need s.rest.length)).run s = .ok e s' := h
  rw [hrun] at hreads
  exact hreads.2.2.1

/-- **Arrays are places, up to signs.** In any function that was read, whatever was rejected on the
way, an expression of the type of an array is a variable or a dereference, or signs in front of one
that has the same type. So no arithmetic, comparison, assignment, address or call has such a type. The
same holds of every operand of an operator, from whatever state it is read, that of `sizeof`
included. -/
theorem parse_arrays_placed {tokens : List Token} {parsed : Parsed} (h : parse tokens = .ok parsed) :
    (∀ f ∈ parsed.program.functions, ∀ n ∈ f.body.nodes,
      n.ty.isArray → n.unsigned.isLvalue ∧ n.unsigned.ty = n.ty) ∧
    ∀ s e s', Routine.unary.parser.run s = .ok e s' → ∀ n ∈ e.nodes,
      n.ty.isArray → n.unsigned.isLvalue ∧ n.unsigned.ty = n.ty := by
  constructor
  · intro f hf n hn harray
    obtain ⟨before, -, hgood⟩ := parse_good h (Program.function_mem hf)
    obtain ⟨e, he, hn⟩ := Stmt.mem_nodes.1 hn
    exact ((hgood e he).2.below hn).unsigned_place harray
  · intro s e s' hrun n hn harray
    exact ((unary_good hrun).2.below hn).unsigned_place harray

/-- Rows and elements of an array are assigned, compared and passed on. -/
def decayingSource : String :=
  "int m[2][3]; int main() \x7b int *p; p = m[1]; return m[0] < p; \x7d"

theorem decayingSource_placed :
    ∃ parsed, parse (Source.tokenize decayingSource).tokens = .ok parsed ∧
      (∃ f ∈ parsed.program.functions, ∃ n ∈ f.body.nodes, n.ty.isArray) ∧
      ∀ f ∈ parsed.program.functions, ∀ n ∈ f.body.nodes, n.ty.isArray →
        n.unsigned.isLvalue ∧ n.unsigned.ty = n.ty := by
  obtain ⟨parsed, hparsed, -⟩ := parse_sound (Source.nonnegative_tokenize decayingSource)
  have harrays : ∀ parsed ∈ (parse (Source.tokenize decayingSource).tokens).toOption,
      ∃ f ∈ parsed.program.functions, ∃ n ∈ f.body.nodes, n.ty.isArray := by decide +kernel
  exact ⟨parsed, hparsed, harrays parsed (by rw [hparsed]; rfl),
    (parse_arrays_placed hparsed).1⟩

/-- A sign in front of an array. -/
def negatedSource : String := "int main() \x7b int a[2]; -a; return sizeof -a; \x7d"

/-- The sign does not decay its operand: what is computed has the type of an array, and the size of
one. -/
theorem negated_array_kept :
    ∃ parsed, parse (Source.tokenize negatedSource).tokens = .ok parsed ∧ parsed.issues = [] ∧
      ∃ f ∈ parsed.program.functions,
        (∃ n ∈ f.body.nodes, n.ty.isArray ∧ n.isLvalue = false) ∧
        ∃ e ∈ f.body.roots, e matches .num 16 _ _ := by
  obtain ⟨parsed, hparsed, -⟩ := parse_sound (Source.nonnegative_tokenize negatedSource)
  have hkept : ∀ parsed ∈ (parse (Source.tokenize negatedSource).tokens).toOption,
      parsed.issues = [] ∧
      ∃ f ∈ parsed.program.functions,
        (∃ n ∈ f.body.nodes, n.ty.isArray ∧ n.isLvalue = false) ∧
        ∃ e ∈ f.body.roots, e matches .num 16 _ _ := by decide +kernel
  exact ⟨parsed, hparsed, hkept parsed (by rw [hparsed]; rfl)⟩

end Parse

end WordC
