import WordC.Proofs.Isolation

/-!
# Calls in trees and calls that wait

A call of a function that is not known where it is read waits for the end of the text. What waits may
be dropped with a statement that is rejected, or folded away in the operand of a `sizeof`. But no call
gets into a tree without having waited for itself: trees are only put together, and no part of one is
used twice.

* `Site`: a callee and a place. `Site.count` and `Site.calls` count the calls there in trees,
  `Site.stored` those in the functions read so far, `Site.waiting` those that wait.
* `Site.Balances`: from one state to a later one, more calls are stored or at hand only if as many more
  are waiting.
* `Parser.Queues`: readers that keep the balance, with one rule for each way readers are put together.
-/
namespace WordC

/-- The issue is a warning about a call of a function that is nowhere declared. -/
def Issue.isUndeclared : Issue → Bool
  | caution _ (.implicitDeclaration _) => true
  | _ => false

theorem Issue.DoubtsArgument.not_undeclared {issue : Issue} (h : issue.DoubtsArgument) :
    issue.isUndeclared = false := by
  cases issue with
  | lexical _ _ => rfl
  | rejected _ => rfl
  | caution loc c =>
    cases c with
    | implicitDeclaration f => exact h.elim
    | argumentMismatch _ _ _ _ => rfl

/-! ## Counting calls -/

namespace Expr

/-- The node is a call of the function `callee` that stands at `loc`. -/
def isCallAt (callee : String) (loc : Loc) : Expr → Bool
  | call f _ _ l => f = callee ∧ l = loc
  | _ => false

theorem nodesAll_eq (es : List Expr) : nodesAll es = es.flatMap nodes := by
  induction es with
  | nil => rfl
  | cons e es ih => rw [nodesAll, ih, List.flatMap_cons]

/-- The nodes of a tree, one subtree after another. -/
theorem nodes_eq (e : Expr) : e.nodes = e :: e.children.flatMap nodes := by
  cases e with
  | num value ty loc => rfl
  | var v ty loc => rfl
  | unary op operand ty loc => simp [nodes, children]
  | binary op lhs rhs ty loc => simp [nodes, children]
  | assign lhs rhs ty loc => simp [nodes, children]
  | call callee args ty loc => rw [nodes, nodesAll_eq, children]

end Expr

namespace Parse

/-- A function and a place where it may be called. -/
structure Site where
  callee : String
  loc : Loc

namespace Site

variable (site : Site)

/-- How often the function is called at the place in a tree. -/
def count (e : Expr) : Nat := e.nodes.countP (·.isCallAt site.callee site.loc)

/-- How often it is called there in several trees. -/
def calls (es : List Expr) : Nat := (es.flatMap Expr.nodes).countP (·.isCallAt site.callee site.loc)

/-- One, if it is this function that is called here. -/
def own (callee : String) (loc : Loc) : Nat :=
  if callee = site.callee ∧ loc = site.loc then 1 else 0

@[simp] theorem calls_nil : site.calls [] = 0 := rfl

@[simp] theorem calls_cons (e : Expr) (es : List Expr) :
    site.calls (e :: es) = site.count e + site.calls es := by
  rw [calls, List.flatMap_cons, List.countP_append]
  rfl

@[simp] theorem calls_append (es es' : List Expr) :
    site.calls (es ++ es') = site.calls es + site.calls es' := by
  rw [calls, List.flatMap_append, List.countP_append]
  rfl

/-- The calls in a tree are its root, if that is one, and those below it. -/
theorem count_node (e : Expr) :
    site.count e = site.calls e.children + if e.isCallAt site.callee site.loc then 1 else 0 := by
  rw [count, Expr.nodes_eq, List.countP_cons]
  rfl

@[simp] theorem count_mkNum (value : Int) (loc : Loc) : site.count (.mkNum value loc) = 0 := rfl

@[simp] theorem count_mkVar (v : Var) (loc : Loc) : site.count (.mkVar v loc) = 0 := rfl

@[simp] theorem count_unary (op : UnaryOp) (e : Expr) (ty : Ty) (loc : Loc) :
    site.count (.unary op e ty loc) = site.count e := by
  rw [count_node]
  simp [Expr.children, Expr.isCallAt]

@[simp] theorem count_binary (op : BinaryOp) (lhs rhs : Expr) (ty : Ty) (loc : Loc) :
    site.count (.binary op lhs rhs ty loc) = site.count lhs + site.count rhs := by
  rw [count_node]
  simp [Expr.children, Expr.isCallAt]

@[simp] theorem count_assign (lhs rhs : Expr) (ty : Ty) (loc : Loc) :
    site.count (.assign lhs rhs ty loc) = site.count lhs + site.count rhs := by
  rw [count_node]
  simp [Expr.children, Expr.isCallAt]

theorem count_mkCall (callee : String) (args : List Expr) (loc : Loc) :
    site.count (.mkCall callee args loc) = site.calls args + site.own callee loc := by
  rw [count_node]
  simp [Expr.mkCall, Expr.children, Expr.isCallAt, own]

/-! ## What builders do with them -/

variable {site} {lhs rhs e e' : Expr} {loc : Loc}

theorem count_mkUnary {op : UnaryOp} (h : Expr.mkUnary op e loc = .ok e') :
    site.count e' = site.count e := by
  cases op with
  | neg => cases h; exact count_unary ..
  | addr => cases h; exact count_unary ..
  | deref =>
    simp only [Expr.mkUnary] at h
    split at h
    · cases h
      exact count_unary ..
    · cases h

theorem count_mkAssign (h : Expr.mkAssign lhs rhs loc = .ok e) :
    site.count e = site.count lhs + site.count rhs := by
  unfold Expr.mkAssign at h
  split at h <;> cases h
  exact count_assign ..

theorem count_combines (h : Combines lhs rhs loc e) :
    site.count e = site.count lhs + site.count rhs := by
  -- Sizes that are multiplied with or divided by are numbers and hold no calls.
  cases h <;> simp [Expr.mkBinary]

/-- An operator uses each of its operands once. -/
theorem count_build {op : Operator} (h : op.build lhs rhs loc = .ok e) :
    site.count e = site.count lhs + site.count rhs := by
  rcases Operator.build_ok h with h | h
  · exact count_combines h
  · rw [count_combines h, Nat.add_comm]

/-! ## Books -/

variable (site)

/-- The calls in the functions read so far. -/
def stored (s : State) : Nat :=
  site.calls ((s.objects.filterMap Object.function?).flatMap (·.body.roots))

/-- The calls that wait. -/
def waiting (s : State) : Nat := s.pending.countP fun c => c.callee = site.callee ∧ c.loc = site.loc

/-- Nothing is known of the function. -/
def Unknown (s : State) : Prop := s.signatures.find? site.callee = none

/-- Between `s` and `s'`, where there were `held` calls in the trees at hand and now are `made`. As long
as nothing is known of the function, new calls are matched by calls that wait. No function is forgotten,
and there is no warning yet. -/
structure Balances (s s' : State) (held made : Nat) : Prop where
  unknown : site.Unknown s' → site.Unknown s
  quiet : (∀ issue ∈ s.issues, issue.isUndeclared = false) →
    ∀ issue ∈ s'.issues, issue.isUndeclared = false
  -- Subtraction is avoided: what is new in trees is at most what is new among the waiting.
  balance : site.Unknown s' →
    site.stored s' + made + site.waiting s ≤ site.stored s + held + site.waiting s'

variable {site}

namespace Balances

variable {s s' s'' : State} {held mid made : Nat}

theorem refl (s : State) (h : made ≤ held) : site.Balances s s held made :=
  ⟨id, id, fun _ => by omega⟩

theorem trans (h : site.Balances s s' held mid) (h' : site.Balances s' s'' mid made) :
    site.Balances s s'' held made where
  unknown hlast := h.unknown (h'.unknown hlast)
  quiet hfirst := h'.quiet (h.quiet hfirst)
  balance hlast := by
    have := h'.balance hlast
    have := h.balance (h'.unknown hlast)
    omega

/-- Trees that are put aside meanwhile. -/
theorem carry (h : site.Balances s s' 0 made) (aside : Nat) :
    site.Balances s s' aside (aside + made) :=
  { h with
    balance := fun hlast => by
      have := h.balance hlast
      omega }

theorem drop (h : site.Balances s s' held made) : site.Balances s s' held 0 :=
  h.trans (.refl s' (Nat.zero_le made))

/-- Tokens and locals do not matter. -/
theorem unchanged (h : s' = { s with rest := s'.rest, scope := s'.scope }) :
    site.Balances s s' held held := by
  rw [h]
  exact ⟨id, id, fun _ => Nat.le_refl _⟩

theorem record (s : State) {issues : List Issue}
    (h : ∀ issue ∈ issues, issue.isUndeclared = false) :
    site.Balances s { s with issues := s.issues ++ issues } held held :=
  ⟨id, fun hs => List.forall_mem_append.2 ⟨hs, h⟩, fun _ => Nat.le_refl _⟩

/-- A call is put to those that wait. -/
theorem wait (s : State) (callee : String) (args : List Argument) (loc : Loc) :
    site.Balances s { s with pending := s.pending ++ [⟨callee, args, loc⟩] } held
      (held + site.own callee loc) := by
  refine ⟨id, id, fun _ => ?_⟩
  have hwaiting : site.waiting { s with pending := s.pending ++ [⟨callee, args, loc⟩] } =
      site.waiting s + site.own callee loc := by
    simp only [waiting, own, List.countP_append, List.countP_singleton, decide_eq_true_eq]
  have hstored : site.stored { s with pending := s.pending ++ [⟨callee, args, loc⟩] } =
      site.stored s := rfl
  omega

/-- A call of a known function does not have to. -/
theorem known {callee : String} {signature : Signature} (loc : Loc) (h : site.Balances s s' held held)
    (hfind : s'.signatures.find? callee = some signature) :
    site.Balances s s' held (held + site.own callee loc) := by
  refine { h with balance := fun hunknown => ?_ }
  have hother : callee ≠ site.callee := by
    rintro rfl
    cases hfind.symm.trans hunknown
  rw [own, if_neg fun hsite => hother hsite.1]
  exact h.balance hunknown

/-- A function that is known stays known. -/
theorem sign (s : State) {table : Signatures}
    (h : table.find? site.callee = none → s.signatures.find? site.callee = none) :
    site.Balances s { s with signatures := table } held held :=
  ⟨h, id, fun _ => Nat.le_refl _⟩

theorem storeGlobal (s : State) (v : Global) :
    site.Balances s { s with objects := s.objects ++ [.global v] } held held := by
  refine ⟨id, id, fun _ => ?_⟩
  have hstored : site.stored { s with objects := s.objects ++ [.global v] } = site.stored s := by
    rw [stored, List.filterMap_append, List.flatMap_append, calls_append]
    rfl
  have hwaiting : site.waiting { s with objects := s.objects ++ [.global v] } = site.waiting s := rfl
  omega

/-- The body of a function that was read is stored with it. -/
theorem storeFunction (s : State) (f : Function) :
    site.Balances s { s with objects := s.objects ++ [.function f] } (site.calls f.body.roots) 0 := by
  refine ⟨id, id, fun _ => ?_⟩
  have hstored : site.stored { s with objects := s.objects ++ [.function f] } =
      site.stored s + site.calls f.body.roots := by
    simp [stored, Object.function?]
  have hwaiting : site.waiting { s with objects := s.objects ++ [.function f] } = site.waiting s := rfl
  omega

end Balances

end Site

/-! ## Readers that keep the balance -/

/-- If the outcome is a state, the books balance; a rejection leaves nothing at hand. -/
def Outcome.Balances {α : Type} (site : Site) (s : State) (held : Nat) (made : α → Nat) :
    Outcome α → Prop
  | .ok a s' => site.Balances s s' held (made a)
  | .rejected _ s' => site.Balances s s' held 0
  | .faulted _ => True

namespace Parser

variable {α β : Type} {site : Site}

/-- From every state, with `held` calls in the trees it builds on, the reader keeps the balance when
`made` says how many are in its result. -/
def Queues (site : Site) (held : Nat) (made : α → Nat) (p : Parser α) : Prop :=
  ∀ s, (p.run s).Balances site s held made

namespace Queues

variable {p q : Parser α} {f : α → Parser β} {held : Nat} {made : α → Nat} {madeLast : β → Nat}

theorem pure {a : α} (h : made a ≤ held) : (Pure.pure a : Parser α).Queues site held made :=
  fun s => .refl s h

theorem reject {loc : Loc} {problem : Problem} :
    (Parser.reject loc problem : Parser α).Queues site held made :=
  fun s => .refl s (Nat.zero_le held)

theorem bind (hp : p.Queues site held made) (hf : ∀ a, (f a).Queues site (made a) madeLast) :
    (p >>= f).Queues site held madeLast := by
  intro s
  have hs := hp s
  rw [run_bind]
  cases hrun : p.run s with
  | ok a s₁ =>
    rw [hrun] at hs
    have hs₁ := hf a s₁
    rw [Outcome.andThen_ok]
    cases hrun₁ : (f a).run s₁ with
    | ok b s₂ => rw [hrun₁] at hs₁; exact hs.trans hs₁
    | rejected r s₂ => rw [hrun₁] at hs₁; exact hs.trans hs₁
    | faulted fault => trivial
  | rejected r s₁ => rw [hrun] at hs; exact hs
  | faulted fault => trivial

theorem ite {c : Prop} [Decidable c] (hp : p.Queues site held made) (hq : q.Queues site held made) :
    (if c then p else q).Queues site held made := by
  split
  · exact hp
  · exact hq

/-- While a reader works, trees read before it can be put aside. -/
theorem carry (h : p.Queues site 0 made) (aside : Nat) :
    p.Queues site aside fun a => aside + made a := by
  intro s
  have hs := h s
  cases hrun : p.run s with
  | ok a s' => rw [hrun] at hs; exact hs.carry aside
  | rejected r s' => rw [hrun] at hs; exact (hs.carry aside).drop
  | faulted fault => trivial

theorem attempt (h : p.Queues site held made) :
    p.attempt.Queues site held fun
      | .ok a => made a
      | .error _ => 0 := by
  intro s
  have hs := h s
  cases hrun : p.run s with
  | ok a s' => rw [hrun] at hs; simp only [Parser.attempt, hrun]; exact hs
  | rejected r s' => rw [hrun] at hs; simp only [Parser.attempt, hrun]; exact hs
  | faulted fault => simp only [Parser.attempt, hrun, Outcome.Balances]

theorem ofRejection {r : Except Rejection α} (h : ∀ a, r = .ok a → made a ≤ held) :
    (Parser.ofRejection r).Queues site held made := by
  cases r with
  | ok a => exact pure (h a rfl)
  | error r => exact fun s => .refl s (Nat.zero_le held)

theorem ofStop {r : Except Stop α} (h : ∀ a, r = .ok a → made a ≤ held) :
    (Parser.ofStop r).Queues site held made := by
  rcases r with (r | fault) | a
  · exact fun s => .refl s (Nat.zero_le held)
  · exact fun _ => trivial
  · exact pure (h a rfl)

theorem modify {g : State → State} {left : Nat} (h : ∀ s, site.Balances s (g s) held left) :
    (Parser.modify g).Queues site held fun _ => left :=
  h

/-- Readers of types, names and parameters have nothing to do with calls. -/
theorem nears (h : p.Along State.Nears) : p.Queues site held fun _ => held := by
  intro s
  cases hrun : p.run s with
  | ok a s' => exact .unchanged (h.ok hrun).only
  | rejected r s' => exact Site.Balances.drop (.unchanged (h.rejected hrun).only)
  | faulted fault => trivial

theorem get : Parser.get.Queues site held fun _ => held := fun s => .refl s (Nat.le_refl held)

theorem current : Parser.current.Queues site held fun _ => held := fun s => .refl s (Nat.le_refl held)

theorem here : Parser.here.Queues site held fun _ => held := fun s => .refl s (Nat.le_refl held)

theorem sees (text : String) : (Parser.sees text).Queues site held fun _ => held :=
  fun s => .refl s (Nat.le_refl held)

theorem atEnd : Parser.atEnd.Queues site held fun _ => held := fun s => .refl s (Nat.le_refl held)

theorem advance : Parser.advance.Queues site held fun _ => held := modify fun _ => .unchanged rfl

theorem ofFault (r : Except Fault α) : (Parser.ofFault r).Queues site held fun _ => held :=
  nears (.ofFault r)

theorem number : Parser.number.Queues site held fun _ => held := nears .number

/-- A choice by the next token. -/
theorem acceptElse {text : String} (hp : p.Queues site held made) (hq : q.Queues site held made) :
    (Parser.accept text >>= fun b => if b = true then p else q).Queues site held made := by
  have haccept : (Parser.accept text).Queues site held fun _ => held :=
    (sees text).bind fun _ => ite (advance.bind fun _ => pure (Nat.le_refl held))
      (pure (Nat.le_refl held))
  exact haccept.bind fun _ => ite hp hq

theorem expect (text : String) : (Parser.expect text).Queues site held fun _ => held :=
  acceptElse (pure (Nat.le_refl held)) (current.bind fun _ => reject)

theorem report (r : Rejection) : (Parser.report r).Queues site held fun _ => held :=
  modify fun s => .record s (List.forall_mem_singleton.2 rfl)

/-- A call is put to those that wait, unless its callee is known. -/
theorem checkCall (callee : String) (args : List Argument) (loc : Loc) :
    (Parser.checkCall callee args loc).Queues site held fun _ => held + site.own callee loc := by
  intro s
  unfold Parser.checkCall
  rw [run_get_bind]
  split
  · rename_i signature hfind
    have hdoubts : ∀ issue ∈ Argument.mismatches callee 1 args signature.params,
        issue.isUndeclared = false :=
      fun issue hissue => (Argument.doubts_mismatches issue hissue).not_undeclared
    have hrecord : site.Balances s
        { s with issues := s.issues ++ Argument.mismatches callee 1 args signature.params } held
        (held + site.own callee loc) := (Site.Balances.record s hdoubts).known loc hfind
    rw [Parser.record, run_modify_bind]
    split
    · exact hrecord.drop
    · exact hrecord
  · exact .wait s callee args loc

theorem callOf (callee : String) (args : List Expr) (loc : Loc) :
    (Parser.callOf callee args loc).Queues site (site.calls args) site.count :=
  ite reject ((checkCall callee _ loc).bind fun _ =>
    pure (Nat.le_of_eq (site.count_mkCall callee args loc)))

theorem variableOf (token : Token) : (Parser.variableOf token).Queues site 0 site.count := by
  refine get.bind fun s => ?_
  split
  · exact pure (Nat.le_refl 0)
  · exact reject

end Queues

end Parser

end Parse

end WordC
