import WordC.Emit.Flow

/-!
# Walking over trees

Expressions and statements are nested in lists and options, so the induction that follows their
constructors is stated here once: every expression among the arguments of a call and every statement
of a block comes with its own hypothesis.

* `Expr.nodes`, `Stmt.nodes`: every expression inside a tree, the tree itself included;
  `Stmt.roots`: those that are no part of a larger one.
* `Expr.emittable`: what emission asks of one node.
* `Expr.fault?_eq_none_iff`, `Stmt.fault?_eq_none_iff`: nothing is in the way of emitting a tree
  exactly if every node of it is emittable.
-/
namespace WordC

/-! ## Induction -/

@[induction_eliminator]
theorem Expr.induct {motive : Expr → Prop}
    (num : ∀ value ty loc, motive (.num value ty loc))
    (var : ∀ v ty loc, motive (.var v ty loc))
    (unary : ∀ op operand ty loc, motive operand → motive (.unary op operand ty loc))
    (binary : ∀ op lhs rhs ty loc, motive lhs → motive rhs → motive (.binary op lhs rhs ty loc))
    (assign : ∀ lhs rhs ty loc, motive lhs → motive rhs → motive (.assign lhs rhs ty loc))
    (call : ∀ callee args ty loc, (∀ arg ∈ args, motive arg) → motive (.call callee args ty loc)) :
    ∀ e, motive e :=
  @Expr.rec motive (fun es => ∀ e ∈ es, motive e) num var unary binary assign call
    (fun _ h => nomatch h)
    (fun _ _ hd tl => List.forall_mem_cons.2 ⟨hd, tl⟩)

@[induction_eliminator]
theorem Stmt.induct {motive : Stmt → Prop}
    (eval : ∀ expr, motive (.eval expr))
    (ret : ∀ value, motive (.ret value))
    (block : ∀ stmts, (∀ s ∈ stmts, motive s) → motive (.block stmts))
    (ite : ∀ cond onTrue onFalse, motive onTrue → (∀ s ∈ onFalse, motive s) →
      motive (.ite cond onTrue onFalse))
    (loop : ∀ init cond step body, (∀ s ∈ init, motive s) → motive body →
      motive (.loop init cond step body)) :
    ∀ s, motive s :=
  @Stmt.rec motive (fun ss => ∀ s ∈ ss, motive s) (fun o => ∀ s ∈ o, motive s)
    eval ret block ite loop
    (fun _ h => nomatch h)
    (fun _ _ hd tl => List.forall_mem_cons.2 ⟨hd, tl⟩)
    (fun _ h => nomatch h)
    (fun _ ih _ h => Option.some.inj h ▸ ih)

/-! ## Nodes -/

namespace Expr

mutual

/-- Every expression inside an expression, itself first. -/
def nodes : Expr → List Expr
  | num value ty loc => [num value ty loc]
  | var v ty loc => [var v ty loc]
  | unary op operand ty loc => unary op operand ty loc :: operand.nodes
  | binary op lhs rhs ty loc => binary op lhs rhs ty loc :: (lhs.nodes ++ rhs.nodes)
  | assign lhs rhs ty loc => assign lhs rhs ty loc :: (lhs.nodes ++ rhs.nodes)
  | call callee args ty loc => call callee args ty loc :: nodesAll args

def nodesAll : List Expr → List Expr
  | [] => []
  | e :: es => e.nodes ++ nodesAll es

end

theorem mem_nodesAll {es : List Expr} {n : Expr} : n ∈ nodesAll es ↔ ∃ e ∈ es, n ∈ e.nodes := by
  induction es with
  | nil => simp [nodesAll]
  | cons e es ih => simp [nodesAll, ih]

/-- The expressions directly below a node. -/
def children : Expr → List Expr
  | num _ _ _ => []
  | var _ _ _ => []
  | unary _ operand _ _ => [operand]
  | binary _ lhs rhs _ _ => [lhs, rhs]
  | assign lhs rhs _ _ => [lhs, rhs]
  | call _ args _ _ => args

/-- The nodes of a tree are its root and the nodes of what stands directly below. -/
theorem mem_nodes {e n : Expr} : n ∈ e.nodes ↔ n = e ∨ ∃ c ∈ e.children, n ∈ c.nodes := by
  cases e <;> simp [nodes, children, mem_nodesAll]

/-! ## What emission asks of a node -/

/-- An address is taken and an assignment is made only of a variable or a dereference, and a call
has an argument register for each argument. -/
def emittable : Expr → Bool
  | unary .addr operand _ _ => operand.isLvalue
  | assign lhs _ _ _ => lhs.isLvalue
  | call _ args _ _ => args.length ≤ maxArgs
  | _ => true

theorem argsFault?_eq_none_iff {args : List Expr} :
    argsFault? args = none ↔ ∀ arg ∈ args, arg.fault? = none := by
  induction args with
  | nil => simp [argsFault?]
  | cons arg args ih => simp [argsFault?, ih]

theorem addressFault?_eq_none_iff (e : Expr) :
    e.addressFault? = none ↔ e.isLvalue ∧ e.fault? = none := by
  unfold addressFault? isLvalue
  split <;> simp_all [fault?]

theorem fault?_eq_none_iff (e : Expr) : e.fault? = none ↔ ∀ n ∈ e.nodes, n.emittable := by
  induction e with
  | num value ty loc => simp [fault?, nodes, emittable]
  | var v ty loc => simp [fault?, nodes, emittable]
  | unary op operand ty loc ih =>
    cases op <;> simp [fault?, nodes, emittable, addressFault?_eq_none_iff, ih]
  | binary op lhs rhs ty loc ihl ihr =>
    simp only [fault?, Option.or_eq_none_iff, ihl, ihr, nodes, List.forall_mem_cons,
      List.forall_mem_append, emittable, true_and]
    exact And.comm
  | assign lhs rhs ty loc ihl ihr =>
    simp [fault?, nodes, emittable, addressFault?_eq_none_iff, ihl, ihr, and_assoc,
      List.forall_mem_append, -List.mem_append]
  | call callee args ty loc ih =>
    have hargs : argsFault? args = none ↔ ∀ n ∈ nodesAll args, n.emittable := by
      rw [argsFault?_eq_none_iff]
      constructor
      · intro h n hn
        obtain ⟨arg, harg, hn⟩ := mem_nodesAll.1 hn
        exact (ih arg harg).1 (h arg harg) n hn
      · intro h arg harg
        exact (ih arg harg).2 fun n hn => h n (mem_nodesAll.2 ⟨arg, harg, hn⟩)
    simp only [fault?, Option.or_eq_none_iff, hargs, nodes, List.forall_mem_cons, emittable,
      decide_eq_true_eq]
    rw [and_comm]
    simp

end Expr

/-! ## Nodes of statements -/

namespace Stmt

mutual

/-- The expressions that a statement evaluates, as whole trees. -/
def roots : Stmt → List Expr
  | eval e => e.toList
  | ret value => value.toList
  | block stmts => rootsAll stmts
  | ite cond onTrue none => cond :: onTrue.roots
  | ite cond onTrue (some onFalse) => cond :: (onTrue.roots ++ onFalse.roots)
  | loop none cond step body => cond.toList ++ body.roots ++ step.toList
  | loop (some init) cond step body => init.roots ++ cond.toList ++ body.roots ++ step.toList

def rootsAll : List Stmt → List Expr
  | [] => []
  | s :: ss => s.roots ++ rootsAll ss

end

/-- Every expression inside a statement. -/
def nodes (s : Stmt) : List Expr := s.roots.flatMap Expr.nodes

theorem mem_nodes {s : Stmt} {n : Expr} : n ∈ s.nodes ↔ ∃ e ∈ s.roots, n ∈ e.nodes :=
  List.mem_flatMap

theorem optionFault?_eq_none_iff (e : Option Expr) :
    optionFault? e = none ↔ ∀ r ∈ e.toList, r.fault? = none := by
  cases e <;> simp [optionFault?]

theorem fault?_eq_none_iff_roots (s : Stmt) : s.fault? = none ↔ ∀ e ∈ s.roots, e.fault? = none := by
  induction s with
  | eval e => exact optionFault?_eq_none_iff e
  | ret value => exact optionFault?_eq_none_iff value
  | block stmts ih =>
    simp only [fault?, roots]
    induction stmts with
    | nil => simp [faultAll?, rootsAll]
    | cons s ss ihs =>
      simp only [faultAll?, rootsAll, Option.or_eq_none_iff, List.forall_mem_append,
        ih s List.mem_cons_self, ihs fun t ht => ih t (List.mem_cons_of_mem s ht)]
  | ite cond onTrue onFalse iht ihf =>
    cases onFalse with
    | none => simp only [fault?, roots, Option.or_eq_none_iff, List.forall_mem_cons, iht]
    | some onFalse =>
      simp only [fault?, roots, Option.or_eq_none_iff, List.forall_mem_cons,
        List.forall_mem_append, and_assoc, iht, ihf onFalse rfl]
  | loop init cond step body ihi ihb =>
    cases init with
    | none =>
      simp only [fault?, roots, Option.or_eq_none_iff, List.forall_mem_append,
        optionFault?_eq_none_iff, ihb]
    | some init =>
      simp only [fault?, roots, Option.or_eq_none_iff, List.forall_mem_append,
        optionFault?_eq_none_iff, ihb, ihi init rfl]

theorem fault?_eq_none_iff (s : Stmt) : s.fault? = none ↔ ∀ n ∈ s.nodes, n.emittable := by
  simp only [fault?_eq_none_iff_roots, Expr.fault?_eq_none_iff, nodes, List.forall_mem_flatMap]

end Stmt

/-! ## Objects -/

theorem Program.function_mem {p : Program} {f : Function} (h : f ∈ p.functions) :
    .function f ∈ p.objects := by
  obtain ⟨o, ho, hof⟩ := List.mem_filterMap.1 h
  cases o with
  | global v => cases hof
  | function g => cases hof; exact ho

end WordC
