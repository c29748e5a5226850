import WordC.Proofs.ReaderSteps

/-!
# Reading what was printed

Whatever expression is printed, reading it gives the tree that it stands for: the readers agree with
the printer on what binds tighter and on which side operators group.

Operators of a rung are read in a loop that has the left operand in hand, and so are subscripts. What
is carried through a surface expression is therefore not only that the reader of a rung reads it to
its end, but also that the reader gets into its loop with it, whatever operator comes next.

* `Reads`, `Leads`: the print is read to its end; the print is read and the loop goes on.
* `Leads.binary`, `Leads.subscript`, `Reads.unary`, `Reads.assign`, `Reads.call` and others: one rule
  for each form.
* `Fits`: a print of a rung is read by the readers of all looser rungs, and with parentheses by all.
* `expression_print`: any printed expression in front of `;`, `)`, `]` or `,` is read back.
-/
namespace WordC.Parse

/-! ## Reading to the end, and into a loop -/

/-- The reader of a rung. Subscripts are read where signs could stand. -/
def reader : Nat → Nat → Parser Expr
  | 0 => Parser.assign
  | 1 => (Parser.chain · .equality)
  | 2 => (Parser.chain · .relational)
  | 3 => (Parser.chain · .additive)
  | 4 => (Parser.chain · .multiplicative)
  | 7 => Parser.primary
  | _ => Parser.unary

/-- The constant in the budget of the reader of a rung. -/
def cost : Nat → Nat
  | 0 => 13
  | 1 => 12
  | 2 => 10
  | 3 => 8
  | 4 => 6
  | 7 => 2
  | _ => 4

/-- The print is read to its end as the given tree, in every state that knows the names of `σ`. -/
def Reads (σ : State) (q : Nat) (us : List Token) (e : Expr) : Prop :=
  ∀ s t k budget, σ.Alike s → Spells us s.rest (t :: k) → Closes q t →
    16 * s.rest.length + cost q ≤ budget →
    ∃ e' s', (reader q budget).run s = .ok e' s' ∧ e'.unplaced = e ∧ s.Resumes (t :: k) s'

/-- A reader that goes on in a loop with what it has read so far, `rung` being that of the whole. -/
structure Loop where
  enter : Nat → Parser Expr
  goOn : Nat → Expr → Parser Expr
  rung : Nat

def Loop.chain (ℓ : Level) : Loop := ⟨(Parser.chain · ℓ), (Parser.chainFrom · ℓ), ℓ.rung⟩

def Loop.subscripts : Loop := ⟨Parser.unary, Parser.subscripts, 6⟩

/-- With the print behind it, the reader is in its loop and has the given tree in hand. -/
def Leads (σ : State) (loop : Loop) (us : List Token) (e : Expr) : Prop :=
  ∀ s t k budget, σ.Alike s → Spells us s.rest (t :: k) → Closes (loop.rung + 1) t →
    16 * s.rest.length + cost loop.rung ≤ budget →
    ∃ e' s' budget', (loop.enter budget).run s = (loop.goOn budget' e').run s' ∧ e'.unplaced = e ∧
      s.Resumes (t :: k) s' ∧ 16 * s'.rest.length + 1 ≤ budget'

variable {σ : State} {us vs : List Token} {e l r : Expr} {ℓ : Level}

open Surface

theorem is_mark {t : Token} {text : String} (h : t.unplaced = mark text) : t.is text := by
  rw [← t.is_unplaced, h]
  simp [mark, Token.is]

theorem cost_le (q : Nat) : cost q ≤ 13 := by
  unfold cost
  split <;> decide

/-- Reading on behind a token, with what is left of the budget. -/
theorem Reads.past {q b : Nat} {s : State} {o t : Token} {m k : List Token} (h : Reads σ q us e)
    (hs : σ.Alike s) (hrest : s.rest = o :: m) (hspells : Spells us m (t :: k)) (hcloses : Closes q t)
    (hb : 16 * s.rest.length ≤ b + 3) :
    ∃ e' s', (reader q b).run { s with rest := m } = .ok e' s' ∧ e'.unplaced = e ∧
      s.Resumes (t :: k) s' := by
  have hs₁ := State.Resumes.advance s m
  have hbudget : 16 * m.length + cost q ≤ b := by
    have := cost_le q
    rw [hrest, List.length_cons] at hb
    omega
  obtain ⟨e', s', hrun, he', hs'⟩ :=
    h { s with rest := m } t k b (hs.resumes hs₁) hspells hcloses hbudget
  exact ⟨e', s', hrun, he', hs₁.trans hs'⟩

/-! ### Operators -/

theorem reader_rung (ℓ : Level) (budget : Nat) : reader ℓ.rung budget = Parser.chain budget ℓ := by
  cases ℓ <;> rfl

theorem operand_succ (ℓ : Level) (budget : Nat) :
    Parser.operand (budget + 1) ℓ = reader (ℓ.rung + 1) budget := by
  cases ℓ <;> simp [Parser.operand, Level.tighter?, Level.rung, reader]

theorem cost_rung (ℓ : Level) : cost ℓ.rung = cost (ℓ.rung + 1) + 2 ∧ 4 ≤ cost (ℓ.rung + 1) := by
  cases ℓ <;> decide

/-- An operand leads into the loop that reads what follows it. -/
theorem Reads.leads_chain (h : Reads σ (ℓ.rung + 1) us e) : Leads σ (.chain ℓ) us e := by
  intro s t k budget hs hspells hcloses hbudget
  obtain ⟨hcost, hleast⟩ := cost_rung ℓ
  replace hbudget : 16 * s.rest.length + cost ℓ.rung ≤ budget := hbudget
  obtain ⟨b, rfl⟩ : ∃ b, budget = b + 2 := ⟨budget - 2, by omega⟩
  obtain ⟨e', s', hrun, he', hs'⟩ := h s t k b hs hspells hcloses (by omega)
  refine ⟨e', s', b + 1, ?_, he', hs', ?_⟩
  · show (Parser.chain (b + 2) ℓ).run s = _
    rw [Parser.chain, Parser.run_bind, operand_succ, hrun]
    rfl
  · have := hspells.length_le
    rw [hs'.rest]
    omega

/-- The loop ends in front of a token that does not go on with it. -/
theorem Leads.reads_chain (h : Leads σ (.chain ℓ) us e) : Reads σ ℓ.rung us e := by
  intro s t k budget hs hspells hcloses hbudget
  obtain ⟨e', s', b, hrun, he', hs', hb⟩ := h s t k budget hs hspells
    (hcloses.mono (Nat.le_succ _)) hbudget
  obtain ⟨b, rfl⟩ : ∃ b', b = b' + 1 := ⟨b - 1, by omega⟩
  refine ⟨e', s', ?_, he', hs'⟩
  rw [reader_rung]
  exact hrun.trans (Parser.chainFrom_closed (hs'.closes hcloses))

/-- One more operator and its right operand. -/
theorem Leads.binary {op : Operator} (hl : Leads σ (.chain op.level) us l)
    (hr : Reads σ (op.level.rung + 1) vs r) (h : op.tree l r = some e) :
    Leads σ (.chain op.level) (us ++ mark op.written.1 :: vs) e := by
  intro s t k budget hs hspells hcloses hbudget
  obtain ⟨m, hus, hvs⟩ := hspells.append
  obtain ⟨o, m, rfl, ho, hvs⟩ := hvs.cons
  have his := is_mark ho
  obtain ⟨l', s₁, b, hrun, hl', hs₁, hb⟩ :=
    hl s o m budget hs hus (Operator.closes_written his) hbudget
  obtain ⟨b, rfl⟩ : ∃ b', b = b' + 2 := ⟨b - 2, by rw [hs₁.rest, List.length_cons] at hb; omega⟩
  obtain ⟨r', s₂, hrun', hr', hs₂⟩ := hr.past (hs.resumes hs₁) hs₁.rest hvs hcloses
    (show 16 * s₁.rest.length ≤ b + 3 by omega)
  have hbuilt : Expr.built? (op.build l' r' o.loc) = some e := by rw [op.built?_build, hl', hr', h]
  obtain ⟨e', hbuild, he'⟩ := Expr.built?_eq_some hbuilt
  refine ⟨e', s₂, b + 1, ?_, he', hs₁.trans hs₂, ?_⟩
  · rw [hrun]
    show (Parser.chainFrom (b + 2) op.level l').run s₁ = (Parser.chainFrom (b + 1) op.level e').run s₂
    rw [Parser.chainFrom_operator hs₁.rest (Operator.operator?_written his), operand_succ, hrun',
      Outcome.andThen_ok, hbuild]
    rfl
  · have := hvs.length_le
    rw [hs₁.rest, List.length_cons] at hb
    rw [hs₂.rest]
    omega

/-! ### Subscripts and signs -/

/-- Without a sign in front, a primary leads into the loop of its subscripts. -/
theorem Reads.leads_subscripts (hu : Avoids Parser.signs us) (h : Reads σ 7 us e) :
    Leads σ .subscripts us e := by
  intro s t k budget hs hspells hcloses hbudget
  replace hbudget : 16 * s.rest.length + 4 ≤ budget := hbudget
  obtain ⟨b, rfl⟩ : ∃ b, budget = b + 2 := ⟨budget - 2, by omega⟩
  obtain ⟨e', s', hrun, he', hs'⟩ := h s t k b hs hspells hcloses
    (by show 16 * s.rest.length + 2 ≤ b; omega)
  replace hrun : (Parser.primary b).run s = .ok e' s' := hrun
  refine ⟨e', s', b, ?_, he', hs', ?_⟩
  · show (Parser.unary (b + 2)).run s = _
    rw [Parser.unary_unsigned (hu.current hspells), hrun]
    rfl
  · have := hspells.length_le
    rw [hs'.rest]
    omega

theorem Leads.reads_unary (h : Leads σ .subscripts us e) : Reads σ 5 us e := by
  intro s t k budget hs hspells hcloses hbudget
  obtain ⟨e', s', b, hrun, he', hs', hb⟩ :=
    h s t k budget hs hspells (hcloses.mono (by decide)) hbudget
  obtain ⟨b, rfl⟩ : ∃ b', b = b' + 1 := ⟨b - 1, by omega⟩
  have hcurrent : Closes 6 s'.current := hs'.closes (hcloses.mono (by decide))
  exact ⟨e', s', hrun.trans (Parser.subscripts_closed hcurrent), he', hs'⟩

/-- One more subscript: the place at the sum of base and index. -/
theorem Leads.subscript {address : Expr} (hl : Leads σ .subscripts us l) (hr : Reads σ 0 vs r)
    (haddress : (Expr.plus l r .nowhere).toOption = some address)
    (h : (Expr.mkUnary .deref address .nowhere).toOption = some e) :
    Leads σ .subscripts (us ++ mark "[" :: (vs ++ [mark "]"])) e := by
  intro s t k budget hs hspells hcloses hbudget
  obtain ⟨m, hus, hvs⟩ := hspells.append
  obtain ⟨o, m, rfl, ho, hvs⟩ := hvs.cons
  obtain ⟨c, hc, hvs⟩ := hvs.concat
  have hopen : Closes 7 o := closes_of_is (is_mark ho) (by decide)
  have hclose : Closes 0 c := closes_of_is (is_mark hc) (by decide)
  obtain ⟨l', s₁, b, hrun, hl', hs₁, hb⟩ := hl s o m budget hs hus hopen hbudget
  obtain ⟨b, rfl⟩ : ∃ b', b = b' + 1 := ⟨b - 1, by omega⟩
  obtain ⟨r', s₂, hrun', hr', hs₂⟩ := hr.past (hs.resumes hs₁) hs₁.rest hvs hclose
    (show 16 * s₁.rest.length ≤ b + 3 by omega)
  replace hrun' : (Parser.assign b).run { s₁ with rest := m } = .ok r' s₂ := hrun'
  have hplus : Expr.built? (Expr.plus l' r' o.loc) = some address := by
    rw [Expr.built?_plus, hl', hr', haddress]
  obtain ⟨a, hplus, ha⟩ := Expr.built?_eq_some hplus
  have hderef : Expr.built? (Expr.mkUnary .deref a o.loc) = some e := by
    rw [Expr.built?_mkUnary, ha, h]
  obtain ⟨e', hderef, he'⟩ := Expr.built?_eq_some hderef
  refine ⟨e', { s₂ with rest := t :: k }, b, ?_, he', (hs₁.trans hs₂).trans (.advance s₂ _), ?_⟩
  · rw [hrun]
    show (Parser.subscripts (b + 1) l').run s₁ =
      (Parser.subscripts b e').run { s₂ with rest := t :: k }
    rw [Parser.subscripts_bracket hs₁.rest (is_mark ho), hrun', Outcome.andThen_ok,
      Parser.run_expect_of_is hs₂.rest (is_mark hc), Outcome.andThen_ok, hplus]
    show ((Parser.ofRejection (Expr.mkUnary .deref a o.loc)).run _).andThen _ = _
    rw [hderef]
    rfl
  · have := hvs.length_le
    rw [hs₁.rest] at hb
    simp only [List.length_cons] at this hb ⊢
    omega

theorem Reads.plus (h : Reads σ 5 us e) : Reads σ 5 (mark "+" :: us) e := by
  intro s t k budget hs hspells hcloses hbudget
  replace hbudget : 16 * s.rest.length + 4 ≤ budget := hbudget
  obtain ⟨b, rfl⟩ : ∃ b, budget = b + 1 := ⟨budget - 1, by omega⟩
  obtain ⟨o, m, hrest, ho, hus⟩ := hspells.cons
  obtain ⟨e', s', hrun, he', hs'⟩ := h.past hs hrest hus hcloses
    (show 16 * s.rest.length ≤ b + 3 by omega)
  exact ⟨e', s', (Parser.unary_plus hrest (is_mark ho)).trans hrun, he', hs'⟩

theorem Reads.unary {op : UnaryOp} (h : Reads σ 5 us l)
    (hplace : ¬(op = .addr ∧ l.isLvalue = false))
    (he : (Expr.mkUnary op l .nowhere).toOption = some e) :
    Reads σ 5 (mark (signOf op) :: us) e := by
  intro s t k budget hs hspells hcloses hbudget
  replace hbudget : 16 * s.rest.length + 4 ≤ budget := hbudget
  obtain ⟨b, rfl⟩ : ∃ b, budget = b + 1 := ⟨budget - 1, by omega⟩
  obtain ⟨o, m, hrest, ho, hus⟩ := hspells.cons
  obtain ⟨l', s', hrun, hl', hs'⟩ := h.past hs hrest hus hcloses
    (show 16 * s.rest.length ≤ b + 3 by omega)
  replace hrun : (Parser.unary b).run { s with rest := m } = .ok l' s' := hrun
  have hbuilt : Expr.built? (Expr.mkUnary op l' o.loc) = some e := by
    rw [Expr.built?_mkUnary, hl', he]
  obtain ⟨e', hbuilt, he'⟩ := Expr.built?_eq_some hbuilt
  refine ⟨e', s', ?_, he', hs'⟩
  show (Parser.unary (b + 1)).run s = _
  rw [← hl', Expr.isLvalue_unplaced] at hplace
  rw [Parser.unary_sign hrest (is_mark ho), hrun, Outcome.andThen_ok, if_neg hplace, hbuilt]
  rfl

theorem Reads.sizeof {size : Int} (h : Reads σ 5 us l) (hsize : l.ty.size.toOption = some size) :
    Reads σ 5 (keyword "sizeof" :: us) (.mkNum size .nowhere) := by
  intro s t k budget hs hspells hcloses hbudget
  replace hbudget : 16 * s.rest.length + 4 ≤ budget := hbudget
  obtain ⟨b, rfl⟩ : ∃ b, budget = b + 3 := ⟨budget - 3, by omega⟩
  obtain ⟨o, m, hrest, ho, hus⟩ := hspells.cons
  have hkeyword : o.is "sizeof" := by
    rw [← o.is_unplaced, ho]
    simp [keyword, Token.is]
  have hunsigned : ∀ sign ∈ Parser.signs, s.current.is sign = false := by
    intro sign hsign
    rw [State.current_of_rest hrest, Token.is_of_is hkeyword]
    revert sign
    decide
  obtain ⟨l', s', hrun, hl', hs'⟩ := h.past hs hrest hus hcloses
    (show 16 * s.rest.length ≤ b + 3 by omega)
  replace hrun : (Parser.unary b).run { s with rest := m } = .ok l' s' := hrun
  have hsize' : l'.ty.size = .ok size := by
    rw [← hl', Expr.ty_unplaced] at hsize
    cases hl : l'.ty.size with
    | error fault => rw [hl] at hsize; cases hsize
    | ok n => rw [hl] at hsize; cases hsize; rfl
  have hcurrent : Closes 6 s'.current := hs'.closes (hcloses.mono (by decide))
  refine ⟨.mkNum size o.loc, s', ?_, Expr.unplaced_mkNum _ _, hs'⟩
  show (Parser.unary (b + 3)).run s = _
  rw [Parser.unary_unsigned hunsigned, Parser.primary_sizeof hrest hkeyword, hrun, Outcome.andThen_ok,
    hsize']
  exact Parser.subscripts_closed hcurrent

/-! ### Assignments -/

theorem Reads.loosen (h : Reads σ 1 us e) : Reads σ 0 us e := by
  intro s t k budget hs hspells hcloses hbudget
  replace hbudget : 16 * s.rest.length + 13 ≤ budget := hbudget
  obtain ⟨b, rfl⟩ : ∃ b, budget = b + 1 := ⟨budget - 1, by omega⟩
  obtain ⟨e', s', hrun, he', hs'⟩ := h s t k b hs hspells (hcloses.mono (by decide))
    (by show 16 * s.rest.length + 12 ≤ b; omega)
  replace hrun : (Parser.chain b .equality).run s = .ok e' s' := hrun
  have hequals : s'.current.is "=" = false := hs'.closes hcloses ("=", 0) (by decide) (by decide)
  refine ⟨e', s', ?_, he', hs'⟩
  show (Parser.assign (b + 1)).run s = _
  rw [Parser.assign, Parser.run_bind, hrun, Outcome.andThen_ok, Parser.run_here_bind, Parser.run_bind,
    Parser.run_accept_of_not hequals]
  rfl

theorem Reads.assign (hl : Reads σ 1 us l) (hr : Reads σ 0 vs r) (hplace : l.isLvalue)
    (h : (Expr.mkAssign l r .nowhere).toOption = some e) : Reads σ 0 (us ++ mark "=" :: vs) e := by
  intro s t k budget hs hspells hcloses hbudget
  replace hbudget : 16 * s.rest.length + 13 ≤ budget := hbudget
  obtain ⟨b, rfl⟩ : ∃ b, budget = b + 1 := ⟨budget - 1, by omega⟩
  obtain ⟨m, hus, hvs⟩ := hspells.append
  obtain ⟨o, m, rfl, ho, hvs⟩ := hvs.cons
  have hequals : Closes 1 o := closes_of_is (is_mark ho) (by decide)
  obtain ⟨l', s₁, hrun, hl', hs₁⟩ := hl s o m b hs hus hequals
    (by show 16 * s.rest.length + 12 ≤ b; omega)
  replace hrun : (Parser.chain b .equality).run s = .ok l' s₁ := hrun
  have hlen := hus.length_le
  rw [← hs₁.rest] at hlen
  obtain ⟨r', s₂, hrun', hr', hs₂⟩ := hr.past (hs.resumes hs₁) hs₁.rest hvs hcloses
    (show 16 * s₁.rest.length ≤ b + 3 by omega)
  replace hrun' : (Parser.assign b).run { s₁ with rest := m } = .ok r' s₂ := hrun'
  have hbuilt : Expr.built? (Expr.mkAssign l' r' o.loc) = some e := by
    rw [Expr.built?_mkAssign, hl', hr', h]
  obtain ⟨e', hbuilt, he'⟩ := Expr.built?_eq_some hbuilt
  rw [← hl', Expr.isLvalue_unplaced] at hplace
  refine ⟨e', s₂, ?_, he', hs₁.trans hs₂⟩
  show (Parser.assign (b + 1)).run s = _
  rw [Parser.assign, Parser.run_bind, hrun, Outcome.andThen_ok, Parser.run_here_bind, Parser.run_bind,
    Parser.run_accept_of_is hs₁.rest (is_mark ho), Outcome.andThen_ok, if_pos rfl, if_pos hplace,
    Parser.run_bind, hrun', Outcome.andThen_ok, State.current_of_rest hs₁.rest, hbuilt]
  rfl

/-! ### Primaries -/

theorem Reads.num (value : Int) : Reads σ 7 [literal value] (.mkNum value .nowhere) := by
  intro s t k budget hs hspells hcloses hbudget
  replace hbudget : 16 * s.rest.length + 2 ≤ budget := hbudget
  obtain ⟨b, rfl⟩ : ∃ b, budget = b + 1 := ⟨budget - 1, by omega⟩
  obtain ⟨o, m, hrest, ho, hnil⟩ := hspells.cons
  rw [hnil.nil] at hrest
  have hkind : o.kind = .num := congrArg Token.kind ho
  have hvalue : o.value = some value := congrArg Token.value ho
  exact ⟨_, _, Parser.primary_num hrest hkind hvalue, Expr.unplaced_mkNum _ _, .advance s _⟩

theorem Reads.var {name : String} {v : Var} (hv : σ.var? name = some v) :
    Reads σ 7 [ident name] (.mkVar v .nowhere) := by
  intro s t k budget hs hspells hcloses hbudget
  replace hbudget : 16 * s.rest.length + 2 ≤ budget := hbudget
  obtain ⟨b, rfl⟩ : ∃ b, budget = b + 1 := ⟨budget - 1, by omega⟩
  obtain ⟨o, m, hrest, ho, hnil⟩ := hspells.cons
  rw [hnil.nil] at hrest
  have hkind : o.kind = .ident := congrArg Token.kind ho
  have hname : o.lexeme = name := congrArg Token.lexeme ho
  have hs₁ := State.Resumes.advance s (t :: k)
  have hparen : State.current { s with rest := t :: k } = t := State.current_of_rest rfl
  have hnot : (State.current { s with rest := t :: k }).is "(" = false := by
    rw [hparen]
    exact hcloses ("(", 7) (by decide) (by decide)
  refine ⟨.mkVar v o.loc, { s with rest := t :: k }, ?_, Expr.unplaced_mkVar _ _, hs₁⟩
  show (Parser.primary (b + 1)).run s = _
  rw [Parser.primary_variable hrest hkind hnot, Parser.variableOf, Parser.run_get_bind,
    (hs.resumes hs₁).var?, hname, hv]
  rfl

theorem Reads.inParens (h : Reads σ 0 us e) : Reads σ 7 (inParens us) e := by
  intro s t k budget hs hspells hcloses hbudget
  replace hbudget : 16 * s.rest.length + 2 ≤ budget := hbudget
  obtain ⟨b, rfl⟩ : ∃ b, budget = b + 1 := ⟨budget - 1, by omega⟩
  obtain ⟨o, m, hrest, ho, hus⟩ := hspells.cons
  obtain ⟨c, hc, hus⟩ := hus.concat
  have hclose : Closes 0 c := closes_of_is (is_mark hc) (by decide)
  obtain ⟨e', s', hrun, he', hs'⟩ := h.past hs hrest hus hclose
    (show 16 * s.rest.length ≤ b + 3 by omega)
  replace hrun : (Parser.assign b).run { s with rest := m } = .ok e' s' := hrun
  refine ⟨e', { s' with rest := t :: k }, ?_, he', hs'.trans (.advance s' _)⟩
  show (Parser.primary (b + 1)).run s = _
  rw [Parser.primary_paren hrest (is_mark ho), hrun, Outcome.andThen_ok,
    Parser.run_expect_of_is hs'.rest (is_mark hc)]
  rfl

/-! ### Calls -/

/-- Arguments and the closing parenthesis behind them. -/
theorem arguments_run {args : List Surface} (hne : args ≠ [])
    (h : ∀ arg ∈ args, ∀ e, arg.tree σ = some e → Reads σ 0 arg.print e) :
    ∀ {es : List Expr}, trees σ args = some es →
    ∀ s k budget, σ.Alike s → Spells (printArgs args ++ [mark ")"]) s.rest k →
      16 * s.rest.length + 14 ≤ budget →
      ∃ es' s', (Parser.arguments budget).run s = .ok es' s' ∧ Expr.unplacedAll es' = es ∧
        s.Resumes k s' := by
  induction args with
  | nil => exact absurd rfl hne
  | cons arg args ih =>
    intro es hes s k budget hs hspells hbudget
    obtain ⟨harg, hargs⟩ := List.forall_mem_cons.1 h
    obtain ⟨b, rfl⟩ : ∃ b, budget = b + 1 := ⟨budget - 1, by omega⟩
    rw [trees] at hes
    obtain ⟨e, he, hes⟩ := Option.bind_eq_some_iff.1 hes
    obtain ⟨es, hmore, hes⟩ := Option.bind_eq_some_iff.1 hes
    cases hes
    rw [printArgs, List.append_assoc] at hspells
    obtain ⟨m, hfirst, hrest⟩ := hspells.append
    by_cases hlast : args = []
    · -- The last one: the parenthesis follows.
      subst hlast
      cases hmore
      obtain ⟨c, m, rfl, hc, hnil⟩ := Spells.cons (by simpa using hrest)
      have hclose : Closes 0 c := closes_of_is (is_mark hc) (by decide)
      obtain ⟨e', s', hrun, he', hs'⟩ := harg e he s c m b hs hfirst hclose
        (by show 16 * s.rest.length + 13 ≤ b; omega)
      replace hrun : (Parser.assign b).run s = .ok e' s' := hrun
      refine ⟨[e'], { s' with rest := m }, Parser.arguments_last hrun hs'.rest (is_mark hc), ?_, ?_⟩
      · simp [Expr.unplacedAll, he']
      · rw [hnil.nil] at hs' ⊢
        exact hs'.trans (.advance s' _)
    · -- A comma and the others.
      have hempty : args.isEmpty = false := by simpa using hlast
      rw [hempty, if_neg (by decide), List.cons_append] at hrest
      obtain ⟨c, m, rfl, hc, hrest⟩ := hrest.cons
      have hclose : Closes 0 c := closes_of_is (is_mark hc) (by decide)
      obtain ⟨e', s₁, hrun, he', hs₁⟩ := harg e he s c m b hs hfirst hclose
        (by show 16 * s.rest.length + 13 ≤ b; omega)
      replace hrun : (Parser.assign b).run s = .ok e' s₁ := hrun
      have hlen := hfirst.length_le
      have hs₂ := State.Resumes.advance s₁ m
      obtain ⟨es', s₃, hrun', hes', hs₃⟩ := ih hlast hargs hmore { s₁ with rest := m } k b
        ((hs.resumes hs₁).resumes hs₂) hrest
        (by show 16 * m.length + 14 ≤ b; simp only [List.length_cons] at hlen; omega)
      refine ⟨e' :: es', s₃, ?_, by simp [Expr.unplacedAll, he', hes'], (hs₁.trans hs₂).trans hs₃⟩
      rw [Parser.arguments_more hrun hs₁.rest (is_mark hc), hrun']
      rfl

/-- Arguments of another type are a matter of caution. -/
theorem isFatal_mismatches {callee : String} {index : Nat} {args : List Argument} {params : List Ty} :
    ∀ issue ∈ Argument.mismatches callee index args params, issue.isFatal = false := by
  fun_induction Argument.mismatches callee index args params with
  | case1 index arg args param params _ ih => exact ih
  | case2 index arg args param params _ ih => exact List.forall_mem_cons.2 ⟨rfl, ih⟩
  | case3 => exact List.forall_mem_nil _

theorem callOf_run {s : State} {callee : String} {args : List Expr} (loc : Loc)
    (h : s.takes callee args.length) :
    ∃ s', (Parser.callOf callee args loc).run s = .ok (.mkCall callee args loc) s' ∧
      s.Resumes s.rest s' := by
  simp only [State.takes, Bool.and_eq_true, decide_eq_true_eq] at h
  obtain ⟨hmost, hknown⟩ := h
  rw [Parser.callOf, if_neg (Nat.not_lt.2 hmost), Parser.run_bind, Parser.checkCall,
    Parser.run_get_bind]
  cases hfind : s.signatures.find? callee with
  | none =>
    refine ⟨_, rfl, { State.Resumes.advance s s.rest with pending := ⟨_, rfl, ?_⟩ }⟩
    exact List.forall_mem_singleton.2 hfind
  | some signature =>
    rw [hfind] at hknown
    have hcount : signature.params.length = args.length := by simpa using hknown
    have hnone (arguments : List Argument) (hlength : arguments.length = args.length) :
        Argument.countProblem? callee arguments signature.params = none := by
      simp [Argument.countProblem?, hcount, hlength]
    rw [Parser.run_bind, hnone _ (List.length_map _)]
    exact ⟨_, rfl, { State.Resumes.advance s s.rest with issues := ⟨_, rfl, isFatal_mismatches⟩ }⟩

/-- No expression starts with a closing parenthesis. -/
theorem Surface.avoids_print (S : Surface) : Avoids [")"] S.print := by
  have hat {needed rung : Nat} {us : List Token} (h : Avoids [")"] us) :
      Avoids [")"] (atLeast needed rung us) := by
    unfold atLeast
    split
    · exact ⟨mark "(", _, rfl, by decide⟩
    · exact h
  induction S with
  | num value => exact ⟨_, _, by rw [print], fun _ _ => Token.is_eq_false (.inr rfl) _⟩
  | var name => exact ⟨_, _, by rw [print], fun _ _ => Token.is_eq_false (.inl rfl) _⟩
  | call callee args _ => exact ⟨_, _, by rw [print], fun _ _ => Token.is_eq_false (.inl rfl) _⟩
  | subscript base index ihb _ => rw [print]; exact (hat ihb).append _
  | sizeof operand _ => exact ⟨_, _, by rw [print], by decide⟩
  | plus operand _ => exact ⟨_, _, by rw [print], by decide⟩
  | unary op operand _ => exact ⟨_, _, by rw [print], by cases op <;> decide⟩
  | binary op lhs rhs ihl _ => rw [print]; exact (hat ihl).append _
  | assign target value iht _ => rw [print]; exact (hat iht).append _

theorem callArgs_run {args : List Surface} {es : List Expr}
    (h : ∀ arg ∈ args, ∀ e, arg.tree σ = some e → Reads σ 0 arg.print e)
    (hes : trees σ args = some es) {s : State} {k : List Token} {b : Nat} (hs : σ.Alike s)
    (hspells : Spells (printArgs args ++ [mark ")"]) s.rest k)
    (hb : 16 * s.rest.length + 14 ≤ b) :
    ∃ es' s', (Parser.callArgs b).run s = .ok es' s' ∧ Expr.unplacedAll es' = es ∧
      s.Resumes k s' := by
  rw [Parser.callArgs, Parser.run_bind]
  cases args with
  | nil =>
    cases hes
    obtain ⟨c, m, hrest, hc, hnil⟩ := Spells.cons hspells
    rw [hnil.nil] at hrest
    rw [Parser.run_accept_of_is hrest (is_mark hc)]
    exact ⟨[], { s with rest := k }, rfl, rfl, .advance s k⟩
  | cons arg args =>
    have hopens : Avoids [")"] (printArgs (arg :: args) ++ [mark ")"]) := by
      rw [printArgs]
      exact (arg.avoids_print.append _).append _
    have hparen := hopens.current hspells ")" List.mem_cons_self
    rw [Parser.run_accept_of_not hparen]
    exact arguments_run (by simp) h hes s k b hs hspells hb

theorem Reads.call {callee : String} {args : List Surface} {es : List Expr}
    (h : ∀ arg ∈ args, ∀ e, arg.tree σ = some e → Reads σ 0 arg.print e)
    (hes : trees σ args = some es) (htakes : σ.takes callee es.length) :
    Reads σ 7 (Surface.call callee args).print (.mkCall callee es .nowhere) := by
  intro s t k budget hs hspells hcloses hbudget
  replace hbudget : 16 * s.rest.length + 2 ≤ budget := hbudget
  obtain ⟨b, rfl⟩ : ∃ b, budget = b + 1 := ⟨budget - 1, by omega⟩
  rw [print] at hspells
  obtain ⟨o, m, hrest, ho, hspells⟩ := hspells.cons
  obtain ⟨p, m, rfl, hp, hspells⟩ := hspells.cons
  have hkind : o.kind = .ident := congrArg Token.kind ho
  have hname : o.lexeme = callee := congrArg Token.lexeme ho
  have hlen : s.rest.length = m.length + 2 := by rw [hrest]; rfl
  have hs₁ := State.Resumes.advance s m
  obtain ⟨es', s₂, hrun, hes', hs₂⟩ := callArgs_run (b := b) h hes (hs.resumes hs₁) hspells
    (by show 16 * m.length + 14 ≤ b; omega)
  rw [← hes', Expr.length_unplacedAll, ← ((hs.resumes hs₁).resumes hs₂).takes] at htakes
  obtain ⟨s₃, hcall, hs₃⟩ := callOf_run o.loc htakes
  rw [hs₂.rest] at hs₃
  refine ⟨.mkCall callee es' o.loc, s₃, ?_, by simp [hes'], (hs₁.trans hs₂).trans hs₃⟩
  show (Parser.primary (b + 1)).run s = _
  rw [Parser.primary_call hrest hkind (is_mark hp), hrun, Outcome.andThen_ok, hname, hcall]

/-! ## Every form -/

/-- The print, of the given rung, is read as the tree wherever that rung is tight enough. -/
structure Fits (σ : State) (rung : Nat) (us : List Token) (e : Expr) : Prop where
  reads : ∀ q, q ≤ 5 → q ≤ rung → Reads σ q us e
  chain : ∀ ℓ : Level, ℓ.rung ≤ rung → Leads σ (.chain ℓ) us e
  subscripts : 6 ≤ rung → Leads σ .subscripts us e

theorem Reads.climb {q : Nat} (h : Reads σ (q + 1) us e) (hq : q + 1 ≤ 5) : Reads σ q us e := by
  have hlevel (ℓ : Level) (hℓ : ℓ.rung = q) : Reads σ q us e := by
    subst hℓ
    exact h.leads_chain.reads_chain
  match q, hq with
  | 0, _ => exact h.loosen
  | 1, _ => exact hlevel .equality rfl
  | 2, _ => exact hlevel .relational rfl
  | 3, _ => exact hlevel .additive rfl
  | 4, _ => exact hlevel .multiplicative rfl

theorem Reads.mono {p q : Nat} (h : Reads σ q us e) (hq : q ≤ 5) (hpq : p ≤ q) : Reads σ p us e := by
  induction q with
  | zero => rwa [Nat.le_zero.1 hpq]
  | succ q ih =>
    rcases Nat.lt_or_eq_of_le hpq with hlt | rfl
    · exact ih (h.climb hq) (by omega) (by omega)
    · exact h

namespace Fits

variable {rung : Nat}

/-- A print that is read on its rung is read on every looser one. -/
theorem of_reads (h : Reads σ rung us e) (hrung : rung ≤ 5)
    (hchain : ∀ ℓ : Level, ℓ.rung = rung → Leads σ (.chain ℓ) us e) : Fits σ rung us e where
  reads q _ hq := h.mono hrung hq
  chain ℓ hℓ := by
    rcases Nat.lt_or_eq_of_le hℓ with hlt | heq
    · exact (h.mono hrung hlt).leads_chain
    · exact hchain ℓ heq
  subscripts hsix := absurd hsix (by omega)

theorem of_chain (h : Leads σ (.chain ℓ) us e) : Fits σ ℓ.rung us e := by
  refine of_reads h.reads_chain (by cases ℓ <;> decide) fun ℓ' hℓ' => ?_
  have : ℓ' = ℓ := by cases ℓ <;> cases ℓ' <;> first | rfl | cases hℓ'
  rwa [this]

theorem of_subscripts (h : Leads σ .subscripts us e) : Fits σ rung us e where
  reads q hfive _ := h.reads_unary.mono (Nat.le_refl 5) hfive
  chain ℓ _ := (h.reads_unary.mono (Nat.le_refl 5) (by cases ℓ <;> decide)).leads_chain
  subscripts _ := h

theorem of_primary (hu : Avoids Parser.signs us) (h : Reads σ 7 us e) : Fits σ rung us e :=
  of_subscripts (h.leads_subscripts hu)

theorem of_unary (h : Reads σ 5 us e) : Fits σ 5 us e :=
  of_reads h (Nat.le_refl 5) fun ℓ hℓ => by cases ℓ <;> cases hℓ

/-- With parentheses where they are needed. -/
theorem atLeast (h : Fits σ rung us e) (needed : Nat) :
    Fits σ needed (Surface.atLeast needed rung us) e := by
  unfold Surface.atLeast
  split
  · refine of_primary ⟨mark "(", _, rfl, by decide⟩ ?_
    exact (h.reads 0 (by omega) (by omega)).inParens
  · rename_i hrung
    exact ⟨fun q hfive hq => h.reads q hfive (by omega), fun ℓ hℓ => h.chain ℓ (by omega),
      fun hsix => h.subscripts (by omega)⟩

end Fits

/-- Every surface expression that stands for a tree is read as that tree. -/
theorem Surface.fits (σ : State) (S : Surface) : ∀ e, S.tree σ = some e →
    Fits σ S.rung S.print e := by
  induction S with
  | num value =>
    intro e he
    rw [tree] at he
    cases he
    rw [print]
    exact .of_primary ⟨_, _, rfl, fun _ _ => Token.is_eq_false (.inr rfl) _⟩ (.num value)
  | var name =>
    intro e he
    rw [tree] at he
    obtain ⟨v, hv, rfl⟩ := Option.map_eq_some_iff.1 he
    rw [print]
    exact .of_primary ⟨_, _, rfl, fun _ _ => Token.is_eq_false (.inl rfl) _⟩ (.var hv)
  | call callee args ih =>
    intro e he
    rw [tree] at he
    obtain ⟨es, hes, he⟩ := Option.bind_eq_some_iff.1 he
    split at he
    · rename_i htakes
      cases he
      have hargs : ∀ arg ∈ args, ∀ e, arg.tree σ = some e → Reads σ 0 arg.print e :=
        fun arg harg e he => (ih arg harg e he).reads 0 (by omega) (by omega)
      refine .of_primary ?_ (.call hargs hes htakes)
      rw [print]
      exact ⟨_, _, rfl, fun _ _ => Token.is_eq_false (.inl rfl) _⟩
    · cases he
  | subscript base index ihb ihi =>
    intro e he
    rw [tree] at he
    obtain ⟨b, hb, he⟩ := Option.bind_eq_some_iff.1 he
    obtain ⟨i, hi, he⟩ := Option.bind_eq_some_iff.1 he
    obtain ⟨address, haddress, he⟩ := Option.bind_eq_some_iff.1 he
    have hbase := ((ihb b hb).atLeast 6).subscripts (by omega)
    have hindex := (ihi i hi).reads 0 (by omega) (by omega)
    rw [print]
    exact .of_subscripts (hbase.subscript hindex haddress he)
  | sizeof operand ih =>
    intro e he
    rw [tree] at he
    obtain ⟨o, ho, he⟩ := Option.bind_eq_some_iff.1 he
    obtain ⟨size, hsize, he⟩ := Option.bind_eq_some_iff.1 he
    cases he
    rw [print]
    exact .of_unary ((((ih o ho).atLeast 5).reads 5 (by omega) (by omega)).sizeof hsize)
  | plus operand ih =>
    intro e he
    rw [tree] at he
    rw [print]
    exact .of_unary (((ih e he).atLeast 5).reads 5 (by omega) (by omega)).plus
  | unary op operand ih =>
    intro e he
    rw [tree] at he
    obtain ⟨o, ho, he⟩ := Option.bind_eq_some_iff.1 he
    split at he
    · cases he
    · rename_i hplace
      rw [print]
      exact .of_unary ((((ih o ho).atLeast 5).reads 5 (by omega) (by omega)).unary hplace he)
  | binary op lhs rhs ihl ihr =>
    intro e he
    rw [tree] at he
    obtain ⟨l, hl, he⟩ := Option.bind_eq_some_iff.1 he
    obtain ⟨r, hr, he⟩ := Option.bind_eq_some_iff.1 he
    have hfive : op.written.2 + 1 ≤ 5 := by cases op <;> decide
    have hleft := ((ihl l hl).atLeast op.written.2).chain op.level (Nat.le_of_eq op.rung_level)
    have hright := ((ihr r hr).atLeast (op.written.2 + 1)).reads _ hfive (Nat.le_refl _)
    rw [print, rung, ← op.rung_level]
    rw [← op.rung_level] at hleft hright
    exact .of_chain (hleft.binary hright he)
  | assign target value iht ihv =>
    intro e he
    rw [tree] at he
    obtain ⟨l, hl, he⟩ := Option.bind_eq_some_iff.1 he
    obtain ⟨r, hr, he⟩ := Option.bind_eq_some_iff.1 he
    split at he
    · rename_i hplace
      have htarget := ((iht l hl).atLeast 1).reads 1 (by omega) (by omega)
      have hvalue := (ihv r hr).reads 0 (by omega) (by omega)
      rw [print, rung]
      exact .of_reads (htarget.assign hvalue hplace he) (by decide) fun ℓ hℓ => by
        cases ℓ <;> cases hℓ
    · cases he

/-- **Reading inverts printing.** Let a surface expression stand for a tree in some state. If the
tokens to be read there are its print, and then one of `;`, `)`, `]` and `,`, the expression is read
as that tree, up to positions. The reader stops in front of that token; apart from the tokens, the
state has only got cautions and calls of unknown functions. -/
theorem expression_print {s : State} {S : Surface} {e : Expr} (htree : S.tree s = some e)
    {ts rest : List Token} {t : Token} (hprint : ts.map Token.unplaced = S.print)
    (ht : t.is ";" ∨ t.is ")" ∨ t.is "]" ∨ t.is ",") (hrest : s.rest = ts ++ t :: rest) :
    ∃ e' s', Parser.expression.run s = .ok e' s' ∧ e'.unplaced = e ∧ s.Resumes (t :: rest) s' := by
  have hcloses : Closes 0 t := by
    rcases ht with h | h | h | h <;> exact closes_of_is h (by decide)
  have hreads := (S.fits s e htree).reads 0 (by omega) (by omega)
  rw [Parser.expression, Parser.run_get_bind]
  refine hreads s t rest (Parser.expressionBudget s.rest.length) ⟨rfl, rfl, rfl⟩
    ⟨ts, hprint, hrest⟩ hcloses ?_
  show 16 * s.rest.length + 13 ≤ 16 * (s.rest.length + 1)
  omega

/-- `a = p[a - (a - 2 * 1)] > sizeof *p == (f(-a, a = 2) == 3)`, with a form of every rung and no
parentheses that could be left out. -/
def ladder : Surface :=
  .assign (.var "a")
    (.binary .eq
      (.binary .gt
        (.subscript (.var "p")
          (.binary .sub (.var "a") (.binary .sub (.var "a") (.binary .mul (.num 2) (.num 1)))))
        (.sizeof (.unary .deref (.var "p"))))
      (.binary .eq (.call "f" [.unary .neg (.var "a"), .assign (.var "a") (.num 2)]) (.num 3)))

/-- Where it is to be read, in a function with an integer `a` and a pointer `p`, up to a semicolon. -/
def beforeLadder : State :=
  { State.ofTokens [] with
    rest := ladder.print.map (fun t => { t with loc := .start }) ++ [mark ";", mark "\x7d"]
    scope := ⟨[⟨"a", .int, -8⟩, ⟨"p", .ptr .int, -16⟩], 16⟩ }

theorem ladder_readBack :
    ∃ e e' s', ladder.tree beforeLadder = some e ∧
      Parser.expression.run beforeLadder = .ok e' s' ∧ e'.unplaced = e ∧
      beforeLadder.Resumes [mark ";", mark "\x7d"] s' := by
  have hsome : (ladder.tree beforeLadder).isSome := by decide +kernel
  obtain ⟨e, he⟩ := Option.isSome_iff_exists.1 hsome
  have hprint : (ladder.print.map fun t => { t with loc := Loc.start }).map Token.unplaced =
      ladder.print := by decide +kernel
  obtain ⟨e', s', hrun, he', hs'⟩ := expression_print he hprint (.inl (by decide)) rfl
  exact ⟨e, e', s', he, hrun, he', hs'⟩

end WordC.Parse
