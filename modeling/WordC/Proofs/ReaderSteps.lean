import WordC.Proofs.Reading
import WordC.Proofs.Surface

/-!
# Steps of the expression readers

What the readers of expressions do with the next token, one lemma for each way they can go, stated for
tokens that spell a given print.

* `Spells`: tokens that are a given print, wherever they stand.
* `State.Resumes`: what reading an expression leaves: other tokens, and maybe cautions and calls that
  wait.
* `Closes`: a token that cannot go on with an expression of a rung. In front of one, the loops that
  read operators and subscripts end.
-/
namespace WordC

theorem Token.is_of_is {t : Token} {a : String} (h : t.is a) (b : String) : t.is b = (a == b) := by
  unfold Token.is at h ⊢
  simp only [Bool.and_eq_true, beq_iff_eq] at h
  rw [h.1, h.2, Bool.true_and]

theorem Token.is_eq_false {t : Token} (h : t.kind = .ident ∨ t.kind = .num) (text : String) :
    t.is text = false := by
  rcases h with h | h <;> simp [Token.is, h]

namespace Parse

/-! ## Tokens in front of others -/

/-- The tokens `ts` are the print `us` with positions, and then `k`. -/
def Spells (us ts k : List Token) : Prop := ∃ front, front.map Token.unplaced = us ∧ ts = front ++ k

namespace Spells

variable {us vs ts k : List Token} {u : Token}

theorem nil (h : Spells [] ts k) : ts = k := by
  obtain ⟨front, hfront, rfl⟩ := h
  rw [List.map_eq_nil_iff.1 hfront, List.nil_append]

theorem cons (h : Spells (u :: us) ts k) :
    ∃ t ts', ts = t :: ts' ∧ t.unplaced = u ∧ Spells us ts' k := by
  obtain ⟨front, hfront, rfl⟩ := h
  obtain ⟨t, more, rfl, ht, hmore⟩ := List.map_eq_cons_iff.1 hfront
  exact ⟨t, more ++ k, rfl, ht, more, hmore, rfl⟩

theorem append (h : Spells (us ++ vs) ts k) : ∃ m, Spells us ts m ∧ Spells vs m k := by
  obtain ⟨front, hfront, rfl⟩ := h
  obtain ⟨first, second, rfl, hfirst, hsecond⟩ := List.map_eq_append_iff.1 hfront
  exact ⟨second ++ k, ⟨first, hfirst, List.append_assoc _ _ _⟩, second, hsecond, rfl⟩

theorem length_le (h : Spells us ts k) : k.length ≤ ts.length := by
  obtain ⟨front, -, rfl⟩ := h
  simp

/-- A print that ends with one more token. -/
theorem concat (h : Spells (us ++ [u]) ts k) : ∃ t, t.unplaced = u ∧ Spells us ts (t :: k) := by
  obtain ⟨m, hus, hm⟩ := h.append
  obtain ⟨t, m', rfl, ht, hnil⟩ := hm.cons
  rw [hnil.nil] at hus
  exact ⟨t, ht, hus⟩

end Spells

/-! ## States -/

/-- The two states know the same names. -/
structure State.Alike (σ s : State) : Prop where
  scope : s.scope = σ.scope
  objects : s.objects = σ.objects
  signatures : s.signatures = σ.signatures

/-- `s'` comes behind `s` when an expression was read and `k` is left. -/
structure State.Resumes (s : State) (k : List Token) (s' : State) : Prop where
  rest : s'.rest = k
  stop : s'.stop = s.stop
  scope : s'.scope = s.scope
  objects : s'.objects = s.objects
  signatures : s'.signatures = s.signatures
  /-- Only cautions are new. -/
  issues : ∃ new, s'.issues = s.issues ++ new ∧ ∀ issue ∈ new, issue.isFatal = false
  /-- Only calls of unknown functions wait. -/
  pending : ∃ calls, s'.pending = s.pending ++ calls ∧
    ∀ c ∈ calls, s.signatures.find? c.callee = none

namespace State

variable {σ s s' s'' : State} {k m : List Token}

theorem Resumes.advance (s : State) (k : List Token) : s.Resumes k { s with rest := k } :=
  ⟨rfl, rfl, rfl, rfl, rfl, ⟨[], by simp, List.forall_mem_nil _⟩, ⟨[], by simp, List.forall_mem_nil _⟩⟩

theorem Resumes.trans (h : s.Resumes m s') (h' : s'.Resumes k s'') : s.Resumes k s'' where
  rest := h'.rest
  stop := h'.stop.trans h.stop
  scope := h'.scope.trans h.scope
  objects := h'.objects.trans h.objects
  signatures := h'.signatures.trans h.signatures
  issues := by
    obtain ⟨new, hnew, hfatal⟩ := h.issues
    obtain ⟨new', hnew', hfatal'⟩ := h'.issues
    exact ⟨new ++ new', by rw [hnew', hnew, List.append_assoc],
      List.forall_mem_append.2 ⟨hfatal, hfatal'⟩⟩
  pending := by
    obtain ⟨calls, hcalls, hunknown⟩ := h.pending
    obtain ⟨calls', hcalls', hunknown'⟩ := h'.pending
    rw [h.signatures] at hunknown'
    exact ⟨calls ++ calls', by rw [hcalls', hcalls, List.append_assoc],
      List.forall_mem_append.2 ⟨hunknown, hunknown'⟩⟩

theorem Alike.resumes (h : σ.Alike s) (hs : s.Resumes k s') : σ.Alike s' :=
  ⟨hs.scope.trans h.scope, hs.objects.trans h.objects, hs.signatures.trans h.signatures⟩

theorem Alike.var? (h : σ.Alike s) (x : String) : s.var? x = σ.var? x := by
  simp only [State.var?, State.global?, h.scope, h.objects]

theorem Alike.takes (h : σ.Alike s) (callee : String) (count : Nat) :
    s.takes callee count = σ.takes callee count := by
  simp only [State.takes, h.signatures]

theorem current_of_rest {t : Token} (h : s.rest = t :: k) : s.current = t := by
  simp [current, h]

end State

/-- The print starts with none of the given punctuators and keywords. -/
def Avoids (texts : List String) (us : List Token) : Prop :=
  ∃ u us', us = u :: us' ∧ ∀ text ∈ texts, u.is text = false

theorem Avoids.append {texts : List String} {us : List Token} (h : Avoids texts us)
    (vs : List Token) : Avoids texts (us ++ vs) := by
  obtain ⟨u, us', rfl, hu⟩ := h
  exact ⟨u, us' ++ vs, rfl, hu⟩

theorem Avoids.current {texts : List String} {us k : List Token} {s : State} (h : Avoids texts us)
    (hs : Spells us s.rest k) : ∀ text ∈ texts, s.current.is text = false := by
  obtain ⟨u, us', rfl, hu⟩ := h
  obtain ⟨t, ts, hrest, rfl, -⟩ := hs.cons
  rw [State.current_of_rest hrest]
  exact hu

/-! ## What can follow -/

/-- The tokens that go on with an expression, and the rung of what they make of it. -/
def continuations : List (String × Nat) :=
  [("=", 0), ("==", 1), ("!=", 1), ("<", 2), ("<=", 2), (">", 2), (">=", 2), ("+", 3), ("-", 3),
    ("*", 4), ("/", 4), ("[", 6), ("(", 7)]

/-- The token does not go on with an expression of this rung. -/
def Closes (q : Nat) (t : Token) : Prop := ∀ c ∈ continuations, q ≤ c.2 → t.is c.1 = false

theorem Closes.mono {p q : Nat} {t : Token} (h : Closes p t) (hpq : p ≤ q) : Closes q t :=
  fun c hc hq => h c hc (Nat.le_trans hpq hq)

/-- The token that reading stopped at closes what comes next, too. -/
theorem State.Resumes.closes {q : Nat} {s s' : State} {t : Token} {k : List Token}
    (h : s.Resumes (t :: k) s') (ht : Closes q t) : Closes q s'.current := by
  rw [State.current_of_rest h.rest]
  exact ht

theorem closes_of_is {q : Nat} {t : Token} {text : String} (h : t.is text)
    (htext : ∀ c ∈ continuations, q ≤ c.2 → (text == c.1) = false) : Closes q t := by
  intro c hc hq
  rw [Token.is_of_is h]
  exact htext c hc hq

/-- The level on which an operator is read. -/
def Operator.level : Operator → Level
  | eq | ne => .equality
  | lt | le | gt | ge => .relational
  | add | sub => .additive
  | mul | div => .multiplicative

def Level.rung : Level → Nat
  | equality => 1
  | relational => 2
  | additive => 3
  | multiplicative => 4

theorem Operator.rung_level (op : Operator) : op.level.rung = op.written.2 := by
  cases op <;> rfl

theorem Operator.operator?_written {op : Operator} {t : Token} (h : t.is op.written.1) :
    op.level.operator? t = some op := by
  cases op <;>
    simp [level, Level.operator?, Level.operators, Operator.symbol, Token.is_of_is h, written]

/-- An operator closes everything that binds tighter. -/
theorem Operator.closes_written {op : Operator} {t : Token} (h : t.is op.written.1) :
    Closes (op.level.rung + 1) t := by
  cases op <;> exact closes_of_is h (by decide)

theorem Level.operator?_of_closes {ℓ : Level} {t : Token} (h : Closes ℓ.rung t) :
    ℓ.operator? t = none := by
  refine List.find?_eq_none.2 fun op hop => ?_
  have hcloses : ∀ c ∈ continuations, ℓ.rung ≤ c.2 → t.is c.1 = false := h
  have hmem : (op.symbol, ℓ.rung) ∈ continuations := by
    cases ℓ <;> simp [operators] at hop <;> rcases hop with rfl | rfl | rfl | rfl <;> decide
  simpa using hcloses _ hmem (Nat.le_refl _)

/-! ## One step of a reader -/

namespace Parser

variable {s : State} {o : Token} {m : List Token} {b : Nat}

theorem run_accept_of_is {text : String} (hrest : s.rest = o :: m) (h : o.is text) :
    (accept text).run s = .ok true { s with rest := m } := by
  rw [run_accept, State.current_of_rest hrest, if_pos h, hrest]
  rfl

theorem run_accept_of_not {text : String} (h : s.current.is text = false) :
    (accept text).run s = .ok false s := by
  rw [run_accept, h]
  rfl

theorem run_expect_of_is {text : String} (hrest : s.rest = o :: m) (h : o.is text) :
    (expect text).run s = .ok () { s with rest := m } := by
  rw [expect, run_bind, run_accept_of_is hrest h]
  rfl

theorem run_advance (hrest : s.rest = o :: m) : advance.run s = .ok () { s with rest := m } := by
  simp [advance, modify, hrest]

theorem run_number {value : Int} (hrest : s.rest = o :: m) (hkind : o.kind = .num)
    (hvalue : o.value = some value) : number.run s = .ok value { s with rest := m } := by
  rw [number, run_current_bind, State.current_of_rest hrest, if_pos hkind, hvalue]
  simp only [run_bind, run_advance hrest, Outcome.andThen_ok, run_pure]

theorem chainFrom_closed {ℓ : Level} {e : Expr} (h : Closes ℓ.rung s.current) :
    (chainFrom (b + 1) ℓ e).run s = .ok e s := by
  rw [chainFrom, run_current_bind, Level.operator?_of_closes h]
  rfl

theorem chainFrom_operator {ℓ : Level} {op : Operator} {lhs : Expr} (hrest : s.rest = o :: m)
    (hop : ℓ.operator? o = some op) :
    (chainFrom (b + 1) ℓ lhs).run s =
      ((operand b ℓ).run { s with rest := m }).andThen fun rhs s' =>
        ((ofStop (op.build lhs rhs o.loc)).run s').andThen fun node s'' =>
          (chainFrom b ℓ node).run s'' := by
  rw [chainFrom, run_current_bind, State.current_of_rest hrest, hop]
  show ((operand b ℓ).run { s with rest := s.rest.tail }).andThen _ = _
  rw [hrest]
  rfl

theorem subscripts_closed {e : Expr} (h : Closes 6 s.current) :
    (subscripts (b + 1) e).run s = .ok e s := by
  have hbracket : s.current.is "[" = false := h ("[", 6) (by decide) (by decide)
  rw [subscripts, run_here_bind, run_bind, run_accept_of_not hbracket]
  rfl

theorem subscripts_bracket {base : Expr} (hrest : s.rest = o :: m) (h : o.is "[") :
    (subscripts (b + 1) base).run s =
      ((assign b).run { s with rest := m }).andThen fun index s' =>
        ((expect "]").run s').andThen fun _ s'' =>
          ((ofStop (Expr.plus base index o.loc)).run s'').andThen fun address s₃ =>
            ((ofRejection (Expr.mkUnary .deref address o.loc)).run s₃).andThen fun element s₄ =>
              (subscripts b element).run s₄ := by
  rw [subscripts, run_here_bind, run_bind, run_accept_of_is hrest h, State.current_of_rest hrest]
  rfl

/-- What stands in front of an operand. -/
def signs : List String := ["+", "-", "&", "*"]

/-- Without a sign in front, an operand is a primary with subscripts. -/
theorem unary_unsigned (h : ∀ sign ∈ signs, s.current.is sign = false) :
    (unary (b + 2)).run s = ((primary b).run s).andThen fun e s' => (subscripts b e).run s' := by
  have hplus := h "+" (by decide)
  have hminus := h "-" (by decide)
  have haddr := h "&" (by decide)
  have hderef := h "*" (by decide)
  rw [unary, run_here_bind, run_bind, run_accept_of_not hplus, Outcome.andThen_ok]
  simp only [Bool.false_eq_true, if_false, run_bind, run_accept_of_not hminus,
    run_accept_of_not haddr, run_accept_of_not hderef, Outcome.andThen_ok]
  rw [subscripted, run_bind]

theorem unary_plus (hrest : s.rest = o :: m) (h : o.is "+") :
    (unary (b + 1)).run s = (unary b).run { s with rest := m } := by
  rw [unary, run_here_bind, run_bind, run_accept_of_is hrest h]
  rfl

/-- An operator in front of an operand that it can be applied to. -/
theorem unary_sign {op : UnaryOp} (hrest : s.rest = o :: m) (h : o.is (signOf op)) :
    (unary (b + 1)).run s =
      ((unary b).run { s with rest := m }).andThen fun e s' =>
        (if op = .addr ∧ e.isLvalue = false then reject e.loc .notLvalue
          else ofRejection (Expr.mkUnary op e o.loc)).run s' := by
  have hcurrent := State.current_of_rest hrest
  have hnot (text : String) (hne : (signOf op == text) = false) :
      (accept text).run s = .ok false s :=
    run_accept_of_not (by rw [hcurrent, Token.is_of_is h]; exact hne)
  rw [unary, run_here_bind]
  cases op with
  | neg =>
    have hsign := run_accept_of_is hrest (show o.is "-" from h)
    simp only [run_bind, hnot "+" (by decide), hsign, Outcome.andThen_ok, hcurrent,
      Bool.false_eq_true, if_false, if_true, reduceCtorEq, false_and]
  | addr =>
    have hsign := run_accept_of_is hrest (show o.is "&" from h)
    simp only [run_bind, hnot "+" (by decide), hnot "-" (by decide), hsign, Outcome.andThen_ok,
      hcurrent, Bool.false_eq_true, if_false, if_true, true_and]
    congr
    funext e s'
    cases e.isLvalue <;> rfl
  | deref =>
    have hsign := run_accept_of_is hrest (show o.is "*" from h)
    simp only [run_bind, hnot "+" (by decide), hnot "-" (by decide), hnot "&" (by decide), hsign,
      Outcome.andThen_ok, hcurrent, Bool.false_eq_true, if_false, if_true, reduceCtorEq, false_and]

theorem primary_paren (hrest : s.rest = o :: m) (h : o.is "(") :
    (primary (b + 1)).run s =
      ((assign b).run { s with rest := m }).andThen fun e s' =>
        ((expect ")").run s').andThen fun _ s'' => .ok e s'' := by
  rw [primary, run_current_bind, run_bind, run_accept_of_is hrest h]
  rfl

theorem primary_sizeof (hrest : s.rest = o :: m) (h : o.is "sizeof") :
    (primary (b + 1)).run s =
      ((unary b).run { s with rest := m }).andThen fun e s' =>
        ((ofFault e.ty.size).run s').andThen fun n s'' => .ok (.mkNum n o.loc) s'' := by
  have hcurrent := State.current_of_rest hrest
  have hparen : s.current.is "(" = false := by rw [hcurrent, Token.is_of_is h]; decide
  rw [primary, run_current_bind, run_bind, run_accept_of_not hparen, Outcome.andThen_ok]
  simp only [Bool.false_eq_true, if_false, if_true, run_bind, run_accept_of_is hrest h,
    Outcome.andThen_ok, hcurrent]
  rfl

theorem primary_num {value : Int} (hrest : s.rest = o :: m) (hkind : o.kind = .num)
    (hvalue : o.value = some value) :
    (primary (b + 1)).run s = .ok (.mkNum value o.loc) { s with rest := m } := by
  have hcurrent := State.current_of_rest hrest
  have hnot (text : String) : (accept text).run s = .ok false s :=
    run_accept_of_not (by rw [hcurrent]; exact Token.is_eq_false (.inr hkind) text)
  rw [primary, run_current_bind, hcurrent]
  simp only [run_bind, hnot, Outcome.andThen_ok, Bool.false_eq_true, if_false, hkind, reduceCtorEq,
    if_true, run_number hrest hkind hvalue]
  rfl

/-- What stands in the parentheses of a call, the closing one included. -/
def callArgs (b : Nat) : Parser (List Expr) := do
  if ← accept ")" then
    return []
  else
    arguments b

/-- An identifier that is not called. -/
theorem primary_variable (hrest : s.rest = o :: m) (hkind : o.kind = .ident)
    (hcalled : (State.current { s with rest := m }).is "(" = false) :
    (primary (b + 1)).run s = (variableOf o).run { s with rest := m } := by
  have hcurrent := State.current_of_rest hrest
  have hnot (text : String) : (accept text).run s = .ok false s :=
    run_accept_of_not (by rw [hcurrent]; exact Token.is_eq_false (.inl hkind) text)
  rw [primary, run_current_bind, hcurrent]
  simp only [run_bind, hnot, Outcome.andThen_ok, Bool.false_eq_true, if_false, hkind, if_true,
    run_advance hrest, run_accept_of_not hcalled]

/-- An identifier and a parenthesis. -/
theorem primary_call {p : Token} (hrest : s.rest = o :: p :: m) (hkind : o.kind = .ident)
    (hcalled : p.is "(") :
    (primary (b + 1)).run s =
      ((callArgs b).run { s with rest := m }).andThen fun args s' =>
        (callOf o.lexeme args o.loc).run s' := by
  have hcurrent := State.current_of_rest hrest
  have hnot (text : String) : (accept text).run s = .ok false s :=
    run_accept_of_not (by rw [hcurrent]; exact Token.is_eq_false (.inl hkind) text)
  have hparen : (accept "(").run { s with rest := p :: m } = .ok true { s with rest := m } :=
    run_accept_of_is (s := { s with rest := p :: m }) rfl hcalled
  rw [primary, run_current_bind, hcurrent]
  simp only [run_bind, hnot, Outcome.andThen_ok, Bool.false_eq_true, if_false, hkind, if_true,
    run_advance hrest, hparen]
  rw [callArgs, run_bind]
  cases (accept ")").run { s with rest := m } with
  | ok closed s' => cases closed <;> rfl
  | rejected r s' => rfl
  | faulted f => rfl

theorem arguments_last {e : Expr} {s' : State} (h : (assign b).run s = .ok e s')
    (hrest : s'.rest = o :: m) (ho : o.is ")") :
    (arguments (b + 1)).run s = .ok [e] { s' with rest := m } := by
  rw [arguments, run_bind, h, Outcome.andThen_ok, run_bind, run_accept_of_is hrest ho]
  rfl

theorem arguments_more {e : Expr} {s' : State} (h : (assign b).run s = .ok e s')
    (hrest : s'.rest = o :: m) (ho : o.is ",") :
    (arguments (b + 1)).run s =
      ((arguments b).run { s' with rest := m }).andThen fun more s'' => .ok (e :: more) s'' := by
  have hparen : s'.current.is ")" = false := by
    rw [State.current_of_rest hrest, Token.is_of_is ho]
    decide
  rw [arguments, run_bind, h, Outcome.andThen_ok, run_bind, run_accept_of_not hparen,
    Outcome.andThen_ok, if_neg (by decide), run_bind, run_expect_of_is hrest ho]
  rfl

end Parser

end Parse

end WordC
