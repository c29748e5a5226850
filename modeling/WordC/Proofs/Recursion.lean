import WordC.Proofs.Routines
import WordC.Proofs.Safety

/-!
# Reading comes to an end

A routine depends only on calls that go down: behind fewer tokens, or of a lower rank. From this follow
that budgets do not matter, and that a routine which calls itself, through others or not, has read a
token in between.

* `Routine.body_congr`: one round of a routine depends on nothing but calls that descend.
* `Routine.reader_eq`, `Routine.parser_run`: with every budget that suffices a reader does the same,
  and it does what its body says.
* `Routine.Calls`: a call that is really made, told by what happens if it does not come back.
* `AllForward`: no reader goes back, or beyond the end of the tokens.
* `parse_halts`: all of it together, and what it comes to for whole texts.
-/
namespace WordC.Parse

/-! ## What a round depends on -/

namespace Parser

variable {α β : Type} {s : State}

/-- Both readers do the same if they do so step by step. -/
theorem run_bind_congr {p p' : Parser α} {f f' : α → Parser β} {strictly : Bool}
    (hmoves : (p.run s).Moves s strictly) (hp : p.run s = p'.run s)
    (hf : ∀ a s', s'.rest <:+ s.rest → (strictly → s'.rest.length < s.rest.length) →
      (f a).run s' = (f' a).run s') : (p >>= f).run s = (p' >>= f').run s := by
  rw [run_bind, run_bind, ← hp]
  cases hrun : p.run s with
  | ok a s' =>
    rw [hrun] at hmoves
    exact hf a s' hmoves.1 hmoves.2
  | rejected r s' => rfl
  | faulted f => rfl

theorem here_congr {f f' : Loc → Parser β}
    (h : (f s.current.loc).run s = (f' s.current.loc).run s) :
    (here >>= f).run s = (here >>= f').run s := h

theorem current_congr {f f' : Token → Parser β}
    (h : (f s.current).run s = (f' s.current).run s) :
    (current >>= f).run s = (current >>= f').run s := h

theorem acceptElse_congr {text : String} {p p' q q' : Parser β}
    (hp : ∀ s', s'.rest <:+ s.rest → s'.rest.length < s.rest.length → p.run s' = p'.run s')
    (hq : q.run s = q'.run s) :
    (accept text >>= fun b => if b = true then p else q).run s =
      (accept text >>= fun b => if b = true then p' else q').run s := by
  rw [run_bind, run_bind, run_accept]
  split
  · rename_i his
    obtain ⟨ts, hrest⟩ := State.rest_of_is his
    exact hp _ (List.tail_suffix _) (by simp [hrest])
  · exact hq

theorem attempt_congr {p p' : Parser α} {f f' : Except Rejection α → Parser β} {strictly : Bool}
    (hmoves : (p.run s).Moves s strictly) (hp : p.run s = p'.run s)
    (hok : ∀ a s', s'.rest <:+ s.rest → (strictly → s'.rest.length < s.rest.length) →
      (f (.ok a)).run s' = (f' (.ok a)).run s')
    (herror : ∀ r s', s'.rest <:+ s.rest → (f (.error r)).run s' = (f' (.error r)).run s') :
    (p.attempt >>= f).run s = (p'.attempt >>= f').run s := by
  rw [run_bind, run_bind]
  unfold attempt
  dsimp only
  rw [← hp]
  cases hrun : p.run s with
  | ok a s' =>
    rw [hrun] at hmoves
    exact hok a s' hmoves.1 hmoves.2
  | rejected r s' =>
    rw [hrun] at hmoves
    exact herror r s' hmoves
  | faulted f => rfl

end Parser

namespace Routine

/-- Calls that are equal, and go forward, wherever the routine can get to. -/
structure Agree (call call' : (r : Routine) → Parser r.Result) (x : Routine × State) : Prop where
  eq {r : Routine} {s : State} : Descends x (r, s) → (call r).run s = (call' r).run s
  moves {r : Routine} {s : State} : Descends x (r, s) → ((call r).run s).Moves s r.takes

variable {call call' : (r : Routine) → Parser r.Result} {r : Routine} {s s₁ : State}

/-- A call, and what is done with its result. -/
theorem Agree.bind {β : Type} (h : Agree call call' (r, s)) {r' : Routine}
    {f f' : r'.Result → Parser β} (hd : Descends (r, s) (r', s₁))
    (hf : ∀ a s', s'.rest <:+ s₁.rest → (r'.takes → s'.rest.length < s₁.rest.length) →
      (f a).run s' = (f' a).run s') : (call r' >>= f).run s₁ = (call' r' >>= f').run s₁ :=
  Parser.run_bind_congr (h.moves hd) (h.eq hd) hf

open WordC.Parse.Parser Descends

theorem Agree.assign (h : Agree call call' (.assign, s)) :
    (body call .assign).run s = (body call' .assign).run s := by
  refine h.bind (ranked (List.suffix_refl _) (by decide)) fun target s₁ hs₁ hlen₁ => ?_
  refine here_congr ?_
  refine acceptElse_congr (fun s₂ hs₂ hlen₂ => ?_) rfl
  split
  · exact h.bind (shorter (hs₂.trans hs₁) (Nat.lt_trans hlen₂ (hlen₁ rfl))) fun _ _ _ _ => rfl
  · rfl

theorem Agree.chain {level : Level} (h : Agree call call' (.chain level, s)) :
    (body call (.chain level)).run s = (body call' (.chain level)).run s := by
  refine h.bind (ranked (List.suffix_refl _) (Nat.lt_succ_self _)) fun first s₁ hs₁ hlen₁ => ?_
  exact h.eq (shorter hs₁ (hlen₁ rfl))

theorem Agree.operand {level : Level} (h : Agree call call' (.operand level, s)) :
    (body call (.operand level)).run s = (body call' (.operand level)).run s := by
  cases level with
  | equality | relational | additive | multiplicative =>
    exact h.eq (ranked (List.suffix_refl _) (by decide))

theorem Agree.chainFrom {level : Level} {lhs : Expr} (h : Agree call call' (.chainFrom level lhs, s)) :
    (body call (.chainFrom level lhs)).run s = (body call' (.chainFrom level lhs)).run s := by
  refine current_congr ?_
  split
  · rename_i op hop
    have his : s.current.is op.symbol := by
      have hsome := List.find?_some hop
      exact hsome
    obtain ⟨ts, hrest⟩ := State.rest_of_is his
    refine run_bind_congr (moves_advance hrest) rfl fun _ s₁ hs₁ hlen₁ => ?_
    refine h.bind (shorter hs₁ (hlen₁ rfl)) fun rhs s₂ hs₂ hlen₂ => ?_
    refine run_bind_congr (moves_build op) rfl fun node s₃ hs₃ _ => ?_
    have hrest₃ := (hs₃.trans hs₂).trans hs₁
    have hle := (hs₃.trans hs₂).length_le
    exact h.eq (shorter hrest₃ (Nat.lt_of_le_of_lt hle (hlen₁ rfl)))
  · rfl

theorem Agree.unary (h : Agree call call' (.unary, s)) :
    (body call .unary).run s = (body call' .unary).run s := by
  have hoperand {f : Expr → Parser Expr} (s₁ : State) (hs₁ : s₁.rest <:+ s.rest)
      (hlen₁ : s₁.rest.length < s.rest.length) :
      (call .unary >>= f).run s₁ = (call' .unary >>= f).run s₁ :=
    h.bind (shorter hs₁ hlen₁) fun _ _ _ _ => rfl
  refine here_congr ?_
  refine acceptElse_congr (fun s₁ hs₁ hlen₁ => h.eq (shorter hs₁ hlen₁)) ?_
  refine acceptElse_congr hoperand ?_
  refine acceptElse_congr hoperand ?_
  refine acceptElse_congr hoperand ?_
  exact h.eq (ranked (List.suffix_refl _) (by decide))

theorem Agree.subscripted (h : Agree call call' (.subscripted, s)) :
    (body call .subscripted).run s = (body call' .subscripted).run s := by
  refine h.bind (ranked (List.suffix_refl _) (by decide)) fun first s₁ hs₁ hlen₁ => ?_
  exact h.eq (shorter hs₁ (hlen₁ rfl))

theorem Agree.subscripts {base : Expr} (h : Agree call call' (.subscripts base, s)) :
    (body call (.subscripts base)).run s = (body call' (.subscripts base)).run s := by
  refine here_congr ?_
  refine acceptElse_congr (fun s₁ hs₁ hlen₁ => ?_) rfl
  refine h.bind (shorter hs₁ hlen₁) fun index s₂ hs₂ _ => ?_
  refine run_bind_congr (moves_expect "]") rfl fun _ s₃ hs₃ _ => ?_
  refine run_bind_congr (moves_build .add) rfl fun address s₄ hs₄ _ => ?_
  refine run_bind_congr (moves_ofRejection _) rfl fun element s₅ hs₅ _ => ?_
  have hs := ((hs₅.trans hs₄).trans hs₃).trans hs₂
  exact h.eq (shorter (hs.trans hs₁) (Nat.lt_of_le_of_lt hs.length_le hlen₁))

theorem Agree.primary (h : Agree call call' (.primary, s)) :
    (body call .primary).run s = (body call' .primary).run s := by
  refine current_congr ?_
  refine acceptElse_congr (fun s₁ hs₁ hlen₁ => h.bind (shorter hs₁ hlen₁) fun _ _ _ _ => rfl) ?_
  refine acceptElse_congr (fun s₁ hs₁ hlen₁ => h.bind (shorter hs₁ hlen₁) fun _ _ _ _ => rfl) ?_
  split
  · rename_i hkind
    obtain ⟨ts, hrest⟩ := State.rest_of_kind_ne (s := s) (by rw [hkind]; decide)
    refine run_bind_congr (moves_advance hrest) rfl fun _ s₁ hs₁ hlen₁ => ?_
    refine acceptElse_congr (fun s₂ hs₂ hlen₂ => ?_) rfl
    refine acceptElse_congr (fun _ _ _ => rfl) ?_
    exact h.bind (shorter (hs₂.trans hs₁) (Nat.lt_trans hlen₂ (hlen₁ rfl))) fun _ _ _ _ => rfl
  · rfl

theorem Agree.arguments (h : Agree call call' (.arguments, s)) :
    (body call .arguments).run s = (body call' .arguments).run s := by
  refine h.bind (ranked (List.suffix_refl _) (by decide)) fun arg s₁ hs₁ hlen₁ => ?_
  refine acceptElse_congr (fun _ _ _ => rfl) ?_
  refine run_bind_congr (moves_expect ",") rfl fun _ s₂ hs₂ hlen₂ => ?_
  exact h.bind (shorter (hs₂.trans hs₁) (Nat.lt_trans (hlen₂ rfl) (hlen₁ rfl))) fun _ _ _ _ => rfl

theorem Agree.lengths {ty : Ty} (h : Agree call call' (.lengths ty, s)) :
    (body call (.lengths ty)).run s = (body call' (.lengths ty)).run s := by
  refine acceptElse_congr (fun s₁ hs₁ hlen₁ => ?_) rfl
  refine here_congr ?_
  refine run_bind_congr moves_number rfl fun len s₂ hs₂ _ => ?_
  refine run_bind_congr (moves_expect "]") rfl fun _ s₃ hs₃ _ => ?_
  have hs := hs₃.trans hs₂
  exact h.bind (shorter (hs.trans hs₁) (Nat.lt_of_le_of_lt hs.length_le hlen₁)) fun _ _ _ _ => rfl

/-- A condition in parentheses, and what comes behind it. -/
theorem condition_congr {β : Type} {f f' : Expr → Parser β}
    (hf : ∀ cond s', s'.rest <:+ s.rest → (f cond).run s' = (f' cond).run s') :
    (do
      expect "("
      let cond ← expression
      expect ")"
      f cond : Parser β).run s =
    (do
      expect "("
      let cond ← expression
      expect ")"
      f' cond : Parser β).run s := by
  refine run_bind_congr (moves_expect "(") rfl fun _ s₁ hs₁ _ => ?_
  refine run_bind_congr moves_expression rfl fun cond s₂ hs₂ _ => ?_
  refine run_bind_congr (moves_expect ")") rfl fun _ s₃ hs₃ _ => ?_
  exact hf cond s₃ ((hs₃.trans hs₂).trans hs₁)

theorem Agree.statement (h : Agree call call' (.statement, s)) :
    (body call .statement).run s = (body call' .statement).run s := by
  have hdown {r : Routine} {s₁ s₂ : State} (hs₁ : s₁.rest <:+ s.rest)
      (hlen₁ : s₁.rest.length < s.rest.length) (hs₂ : s₂.rest <:+ s₁.rest)
      (hgroup : r.group = .statement) : Descends (.statement, s) (r, s₂) :=
    ⟨hgroup, hs₂.trans hs₁, .inl (Nat.lt_of_le_of_lt hs₂.length_le hlen₁)⟩
  -- The part of a `for` behind its first part.
  have hfor (s₁ s₂ : State) (hs₁ : s₁.rest <:+ s.rest) (hlen₁ : s₁.rest.length < s.rest.length)
      (hs₂ : s₂.rest <:+ s₁.rest) (init : Stmt) :
      (do
        let cond ← expressionUnless ";"
        expect ";"
        let step ← expressionUnless ")"
        expect ")"
        let body ← call .statement
        return Stmt.loop (some init) cond step body : Parser Stmt).run s₂ =
      (do
        let cond ← expressionUnless ";"
        expect ";"
        let step ← expressionUnless ")"
        expect ")"
        let body ← call' .statement
        return Stmt.loop (some init) cond step body : Parser Stmt).run s₂ := by
    refine run_bind_congr (moves_expressionUnless ";") rfl fun cond s₃ hs₃ _ => ?_
    refine run_bind_congr (moves_expect ";") rfl fun _ s₄ hs₄ _ => ?_
    refine run_bind_congr (moves_expressionUnless ")") rfl fun step s₅ hs₅ _ => ?_
    refine run_bind_congr (moves_expect ")") rfl fun _ s₆ hs₆ _ => ?_
    have hs := (((hs₆.trans hs₅).trans hs₄).trans hs₃).trans hs₂
    exact h.bind (hdown hs₁ hlen₁ hs rfl) fun _ _ _ _ => rfl
  refine acceptElse_congr (fun _ _ _ => rfl) ?_
  refine acceptElse_congr (fun s₁ hs₁ hlen₁ => condition_congr fun cond s₂ hs₂ => ?_) ?_
  · refine h.bind (hdown hs₁ hlen₁ hs₂ rfl) fun onTrue s₃ hs₃ _ => ?_
    refine acceptElse_congr (fun s₄ hs₄ _ => ?_) rfl
    exact h.bind (hdown hs₁ hlen₁ ((hs₄.trans hs₃).trans hs₂) rfl) fun _ _ _ _ => rfl
  refine acceptElse_congr (fun s₁ hs₁ hlen₁ => ?_) ?_
  · refine run_bind_congr (moves_expect "(") rfl fun _ s₂ hs₂ _ => ?_
    rw [run_sees_bind, run_sees_bind]
    dsimp only
    split
    · exact run_bind_congr moves_declaration rfl fun init s₃ hs₃ _ =>
        hfor s₁ s₃ hs₁ hlen₁ (hs₃.trans hs₂) init
    · exact run_bind_congr moves_expressionStatement rfl fun init s₃ hs₃ _ =>
        hfor s₁ s₃ hs₁ hlen₁ (hs₃.trans hs₂) init
  refine acceptElse_congr (fun s₁ hs₁ hlen₁ => condition_congr fun cond s₂ hs₂ => ?_) ?_
  · exact h.bind (hdown hs₁ hlen₁ hs₂ rfl) fun _ _ _ _ => rfl
  refine acceptElse_congr (fun s₁ hs₁ hlen₁ => ?_) rfl
  exact h.bind (hdown hs₁ hlen₁ (List.suffix_refl _) rfl) fun _ _ _ _ => rfl

theorem Agree.items (h : Agree call call' (.items, s)) :
    (body call .items).run s = (body call' .items).run s := by
  refine acceptElse_congr (fun _ _ _ => rfl) ?_
  rw [run_atEnd_bind, run_atEnd_bind]
  split
  · rfl
  rename_i hend
  rw [run_get_bind, run_get_bind]
  dsimp only
  rw [run_current_bind, run_current_bind]
  have hstatement : Descends (.items, s) (.statement, s) := ranked (List.suffix_refl _) (by decide)
  have hitem : ((if startsObject s.current then declaration else call .statement).run s).Moves s
      true := by
    split
    · exact moves_declaration
    · exact h.moves hstatement
  have heq : (if startsObject s.current then declaration else call .statement).run s =
      (if startsObject s.current then declaration else call' .statement).run s := by
    split
    · rfl
    · exact h.eq hstatement
  refine attempt_congr hitem heq (fun stmt s₁ hs₁ hlen₁ => ?_) fun r s₁ hs₁ => ?_
  · exact h.bind (shorter hs₁ (hlen₁ rfl)) fun _ _ _ _ => rfl
  · have hrest := (resume_suffix startsItem s.rest s₁.rest).trans hs₁
    have hlen := length_resume_lt startsItem hs₁ (by simpa using hend)
    exact h.eq (shorter hrest hlen)

theorem body_congr (h : Agree call call' (r, s)) : (r.body call).run s = (r.body call').run s := by
  cases r with
  | assign => exact h.assign
  | chain level => exact h.chain
  | operand level => exact h.operand
  | chainFrom level lhs => exact h.chainFrom
  | unary => exact h.unary
  | subscripted => exact h.subscripted
  | subscripts base => exact h.subscripts
  | primary => exact h.primary
  | arguments => exact h.arguments
  | lengths ty => exact h.lengths
  | statement => exact h.statement
  | items => exact h.items

/-! ## Budgets do not matter -/

theorem parser_moves (r : Routine) (s : State) : (r.parser.run s).Moves s r.takes :=
  r.reader_moves (Nat.le_refl _)

/-- With every budget that suffices, a reader is its body with the routines for the calls. -/
theorem reader_run (n : Nat) : ∀ (r : Routine) (s : State) (b : Nat),
    r.need s.rest.length = n → n ≤ b → (r.reader b).run s = (r.body parser).run s := by
  induction n using Nat.strongRecOn with
  | ind n ih =>
    intro r s b hn hb
    subst hn
    cases b with
    | zero =>
      have hpos := r.rank_bounds.1
      unfold need at hb
      omega
    | succ b =>
      rw [reader_succ]
      refine body_congr ⟨fun hd => ?_, fun hd => ?_⟩
      · have hlt := need_lt hd
        rw [ih _ hlt _ _ b rfl (by omega)]
        exact (ih _ hlt _ _ _ rfl (Nat.le_refl _)).symm
      · have hlt := need_lt hd
        exact reader_moves _ (by omega)

/-- A routine is one round of it, in which other routines are called. -/
theorem parser_run (r : Routine) (s : State) : r.parser.run s = (r.body parser).run s :=
  reader_run _ r s _ rfl (Nat.le_refl _)

/-- No budget that suffices is better than another. -/
theorem reader_eq {r : Routine} {s : State} {b : Nat} (h : r.need s.rest.length ≤ b) :
    (r.reader b).run s = r.parser.run s :=
  (reader_run _ r s b rfl h).trans (r.parser_run s).symm

/-! ## Calls -/

open Classical in
/-- The routines, except that one call never comes back. -/
noncomputable def without (y : Routine × State) (r : Routine) : Parser r.Result where
  run s := if (r, s) = y then .faulted .exhausted else r.parser.run s

/-- The first routine, run at its state, calls the second one at its state: if that call does not come
back, neither does the first routine. -/
def Calls (x y : Routine × State) : Prop := (x.1.body (without y)).run x.2 = .faulted .exhausted

theorem Calls.descends {x y : Routine × State} (h : Calls x y) : Descends x y := by
  refine Classical.byContradiction fun hnot => ?_
  have hagree : Agree parser (without y) x := by
    refine ⟨fun {r s} hd => ?_, fun {r s} _ => r.parser_moves s⟩
    have hne : (r, s) ≠ y := by
      rintro rfl
      exact hnot hd
    simp only [without, if_neg hne]
  have hrun := (x.1.parser_run x.2).trans (body_congr hagree)
  have hmoves := x.1.parser_moves x.2
  rw [hrun, h] at hmoves
  cases hmoves

theorem descends_of_transGen {x y : Routine × State} (h : Relation.TransGen Calls x y) :
    Descends x y := by
  induction h with
  | single h => exact h.descends
  | tail _ h ih => exact ih.trans h.descends

/-- The routine, whatever it was given to go on with. -/
def bare : Routine → Routine
  | chainFrom level _ => chainFrom level default
  | subscripts _ => subscripts default
  | lengths _ => lengths default
  | r => r

theorem rank_eq_of_bare {r r' : Routine} (h : r'.bare = r.bare) : r'.rank = r.rank := by
  have hrank (r : Routine) : r.bare.rank = r.rank := by cases r <;> rfl
  rw [← hrank r', h, hrank r]

end Routine

/-! ## All readers -/

section

variable {α β : Type} {s : State}

open WordC.Parse.Parser

theorem Outcome.Moves.bind {p : Parser α} {f : α → Parser β} {strictly : Bool}
    (hp : (p.run s).Moves s strictly)
    (hf : ∀ a s', s'.rest <:+ s.rest → ((f a).run s').Moves s' false) :
    ((p >>= f).run s).Moves s false := by
  rw [run_bind]
  cases hrun : p.run s with
  | ok a s' =>
    rw [hrun] at hp
    have hmoves := hf a s' hp.1
    rw [Outcome.andThen_ok]
    cases hrun' : (f a).run s' with
    | ok b s'' =>
      rw [hrun'] at hmoves
      exact ⟨hmoves.1.trans hp.1, fun hfalse => by cases hfalse⟩
    | rejected r s'' => rw [hrun'] at hmoves; exact List.IsSuffix.trans hmoves hp.1
    | faulted f => rw [hrun'] at hmoves; exact hmoves
  | rejected r s' => rw [hrun] at hp; exact hp
  | faulted f => rw [hrun] at hp; exact hp

theorem Outcome.Moves.acceptElse {text : String} {p q : Parser β}
    (hp : ∀ s', s'.rest <:+ s.rest → (p.run s').Moves s' false) (hq : (q.run s).Moves s false) :
    ((accept text >>= fun b => if b = true then p else q).run s).Moves s false := by
  rw [run_bind, run_accept]
  split
  · have hadvance : (advance.run s).Moves s false :=
      ⟨List.tail_suffix _, fun hfalse => by cases hfalse⟩
    exact hadvance.bind fun _ s' hs' => hp s' hs'
  · exact hq

theorem Discipline.Keeps.moves {o : Outcome α} {post : α → State → Prop} {rest : List Token}
    (h : anything.Keeps rest post o) (hrest : rest <:+ s.rest) : o.Moves s false := by
  cases o with
  | ok a s' => exact ⟨h.2.1.trans hrest, fun hfalse => by cases hfalse⟩
  | rejected r s' => exact h.2.trans hrest
  | faulted f => exact h

end

namespace Parser

variable {α : Type}

/-- From every state, the reader goes forward. -/
def Forward (p : Parser α) : Prop := ∀ s, (p.run s).Moves s false

open Discipline

theorem forward_typeName : Forward typeName :=
  fun _ => (Yields.typeName (D := anything) trivial).moves

theorem forward_pointers (base : Ty) : Forward (pointers base) :=
  fun _ => (Yields.pointers (D := anything) trivial trivial).moves

theorem forward_identifier : Forward identifier :=
  fun _ => (Yields.identifier (D := anything) trivial).moves

theorem forward_block : Forward block :=
  fun _ => (Yields.block (D := anything) trivial).moves

theorem forward_reject (loc : Loc) (problem : Problem) : Forward (reject loc problem : Parser α) :=
  fun s => List.suffix_refl s.rest

theorem forward_pure (a : α) : Forward (pure a : Parser α) :=
  fun s => ⟨List.suffix_refl s.rest, fun hfalse => by cases hfalse⟩

theorem forward_header : Forward header := by
  intro s
  have hend (name : Name) (result : Ty) (params : List Local) : Forward
      (if maxArgs < params.length then reject name.loc (.tooManyParameters name.text)
        else pure ⟨name, result, params⟩ : Parser Header) := by
    split
    · exact forward_reject _ _
    · exact forward_pure _
  refine (forward_typeName s).bind fun base s₁ _ => (forward_pointers base s₁).bind fun result s₂ _ => ?_
  refine (forward_identifier s₂).bind fun name s₃ _ => (moves_expect "(").bind fun _ s₄ _ => ?_
  rw [run_get_bind]
  refine .acceptElse (fun s₅ _ => hend name result [] s₅) ?_
  have hparams := parameters_yields (D := anything) (s₄.rest.length + 1) s₄ trivial (Nat.le_refl _)
  exact hparams.moves.bind fun params s₅ _ => hend name result params s₅

theorem forward_prototype (h : Header) : Forward (prototype h) := by
  intro s
  unfold prototype
  rw [run_get_bind]
  split
  · exact forward_reject _ _ s
  · exact ⟨List.suffix_refl _, fun hfalse => by cases hfalse⟩

theorem forward_definition (h : Header) : Forward (definition h) := by
  intro s
  unfold definition
  rw [run_get_bind]
  split
  · exact forward_reject _ _ s
  · rw [run_modify_bind]
    have hbody (s' : State) : ((do
        expect "\x7b"
        let body ← block
        modify fun s =>
          { s with
            objects := s.objects ++
              [.function ⟨h.name.text, h.params, .func h.result, s.scope.locals, body,
                s.scope.size⟩] } : Parser Unit).run s').Moves s' false := by
      refine (moves_expect "\x7b").bind fun _ s₁ _ => (forward_block s₁).bind fun body s₂ _ => ?_
      exact ⟨List.suffix_refl _, fun hfalse => by cases hfalse⟩
    exact hbody { s with signatures := s.signatures.define h.name.text h.paramTypes }

theorem forward_function : Forward function := by
  intro s
  refine (forward_header s).bind fun h s₁ _ => ?_
  exact .acceptElse (fun s₂ _ => forward_prototype h s₂) (forward_definition h s₁)

theorem forward_globals : Forward globals :=
  fun s => (globals_keeps (D := anything) (s := s) trivial).moves (List.suffix_refl _)

/-- Skipping goes forward, too. -/
theorem forward_recovering {p : Parser Unit} {skip : List Token → List Token → List Token}
    (hp : Forward p) (hskip : ∀ start rest, skip start rest <:+ rest) :
    Forward (recovering p skip) := by
  intro s
  have hmoves := hp s
  unfold recovering
  rw [run_get_bind, run_bind]
  cases hrun : p.run s with
  | ok a s' =>
    rw [hrun] at hmoves
    simp only [attempt, hrun]
    exact hmoves
  | rejected r s' =>
    rw [hrun] at hmoves
    simp only [attempt, hrun]
    exact ⟨(hskip _ _).trans hmoves, fun hfalse => by cases hfalse⟩
  | faulted f =>
    rw [hrun] at hmoves
    simp only [attempt, hrun]
    exact hmoves

theorem forward_object : Forward object := by
  intro s
  unfold object
  rw [run_modify_bind, run_get_bind]
  have henter (s' : State) (hrest : s'.rest = s.rest) {o : Outcome Unit} (ho : o.Moves s' false) :
      o.Moves s false := by
    unfold Outcome.Moves at ho ⊢
    rwa [hrest] at ho
  split
  · exact henter _ rfl (forward_recovering forward_function skipFunction_suffix _)
  · exact henter _ rfl (forward_recovering forward_globals (resume_suffix startsObject) _)

theorem forward_unit : Forward unit := by
  intro s
  unfold unit
  rw [run_get_bind]
  have hobjects := objects_keeps (D := anything) (s.rest.length + 1) s trivial (Nat.le_refl _)
  refine (hobjects.moves (List.suffix_refl _)).bind fun _ s' _ => ?_
  exact ⟨List.suffix_refl _, fun hfalse => by cases hfalse⟩

end Parser

open WordC.Parse.Parser in
/-- No reader goes back, and none goes beyond the tokens that are left: what it leaves are the last of
them. -/
structure AllForward : Prop where
  routine (r : Routine) : Forward r.parser
  accept (text : String) : Forward (accept text)
  expect (text : String) : Forward (expect text)
  number : Forward number
  identifier : Forward identifier
  typeName : Forward typeName
  pointers (base : Ty) : Forward (pointers base)
  declarator (base : Ty) : Forward (declarator base)
  declareLocal (name : Name) (ty : Ty) : Forward (declareLocal name ty)
  declaration : Forward declaration
  expression : Forward expression
  expressionStatement : Forward expressionStatement
  block : Forward block
  header : Forward header
  function : Forward function
  globals : Forward globals
  object : Forward object
  unit : Forward unit

theorem allForward : AllForward where
  routine r s := by
    have hmoves := r.parser_moves s
    cases hrun : r.parser.run s with
    | ok a s' =>
      rw [hrun] at hmoves
      exact ⟨hmoves.1, fun hfalse => by cases hfalse⟩
    | rejected r' s' => rw [hrun] at hmoves; exact hmoves
    | faulted f => rw [hrun] at hmoves; exact hmoves
  accept text s := by
    rw [Parser.run_accept]
    split
    · exact ⟨List.tail_suffix _, fun hfalse => by cases hfalse⟩
    · exact ⟨List.suffix_refl _, fun hfalse => by cases hfalse⟩
  expect text _ := (Discipline.Yields.expect (D := anything) text trivial).moves
  number _ := (Discipline.Yields.number (D := anything) trivial).moves
  identifier := Parser.forward_identifier
  typeName := Parser.forward_typeName
  pointers := Parser.forward_pointers
  declarator _ _ := (Discipline.Yields.declarator (D := anything) trivial trivial).moves
  declareLocal _ _ _ := (Discipline.Yields.declareLocal (D := anything) trivial trivial trivial).moves
  declaration _ := (Discipline.Yields.declaration (D := anything) trivial).moves
  expression _ := (Discipline.Yields.expression (D := anything) trivial).moves
  expressionStatement _ := (Discipline.Yields.expressionStatement (D := anything) trivial).moves
  block := Parser.forward_block
  header := Parser.forward_header
  function := Parser.forward_function
  globals := Parser.forward_globals
  object := Parser.forward_object
  unit := Parser.forward_unit

/-! ## The end of reading -/

/-- The routines are what is run: each is one round of it with routines for the calls, and where another
reader needs one, it gets one. -/
structure RoutinesRun : Prop where
  round (r : Routine) (s : State) : r.parser.run s = (r.body Routine.parser).run s
  expression (s : State) : Parser.expression.run s = Routine.assign.parser.run s
  suffixes (ty : Ty) (s : State) : (Parser.suffixes ty).run s = (Routine.lengths ty).parser.run s
  block (s : State) :
    Parser.block.run s = (Routine.items.parser >>= fun stmts => pure (.block stmts)).run s

theorem routinesRun : RoutinesRun where
  round := Routine.parser_run
  expression s := by
    unfold Parser.expression
    rw [Parser.run_get_bind]
    have hneed : Routine.assign.need s.rest.length ≤ Parser.expressionBudget s.rest.length := by
      simp only [Routine.need, Routine.group, Routine.Group.weight, Routine.rank,
        Parser.expressionBudget]
      omega
    exact Routine.reader_eq hneed
  suffixes ty s := by
    unfold Parser.suffixes
    rw [Parser.run_get_bind]
    have hneed : (Routine.lengths ty).need s.rest.length ≤ s.rest.length + 1 := by
      simp only [Routine.need, Routine.group, Routine.Group.weight, Routine.rank]
      omega
    exact Routine.reader_eq hneed
  block s := by
    have hneed : Routine.items.need s.rest.length ≤ Parser.blockBudget s.rest.length := by
      simp only [Routine.need, Routine.group, Routine.Group.weight, Routine.rank, Parser.blockBudget]
      omega
    have hitems : (Parser.items (Parser.blockBudget s.rest.length)).run s =
        Routine.items.parser.run s := Routine.reader_eq hneed
    unfold Parser.block
    rw [Parser.run_get_bind, Parser.run_bind, Parser.run_bind, hitems]

/-- One object, accepted or not, takes at least one of the tokens that are left. -/
theorem object_moves {s : State} (h : s.rest ≠ []) :
    (Parser.object.run s).Moves s true ∧ ∀ r s', Parser.object.run s ≠ .rejected r s' := by
  have hkeeps := Discipline.object_keeps (D := anything) trivial h
  have hnever : ∀ r s', Parser.object.run s ≠ .rejected r s' := by
    intro r s' hrun
    unfold Parser.object at hrun
    rw [Parser.run_modify_bind, Parser.run_get_bind] at hrun
    split at hrun
    · exact Discipline.recovering_ne_rejected _ _ _ _ _ hrun
    · exact Discipline.recovering_ne_rejected _ _ _ _ _ hrun
  refine ⟨?_, hnever⟩
  cases hrun : Parser.object.run s with
  | ok u s' =>
    rw [hrun] at hkeeps
    exact ⟨hkeeps.2.1, fun _ => hkeeps.2.2⟩
  | rejected r s' => exact absurd hrun (hnever r s')
  | faulted f => rw [hrun] at hkeeps; exact hkeeps

/-- **Reading halts.** Any tokens are read to the end, unless there is a negative number among them and a
size leaves the range of a word. No reader goes back or beyond the first end mark. Each object takes a
token, whether it is accepted or skipped. And a routine that is entered again, by whatever calls, is
entered with fewer tokens; the items of a block are such calls. -/
theorem parse_halts :
    (∀ tokens, (∃ parsed, parse tokens = .ok parsed) ∨
      parse tokens = .error .overflow ∧ ¬Nonnegative tokens) ∧
    AllForward ∧
    (∀ s, s.rest ≠ [] →
      (Parser.object.run s).Moves s true ∧ ∀ r s', Parser.object.run s ≠ .rejected r s') ∧
    RoutinesRun ∧
    ∀ x y, Relation.TransGen Routine.Calls x y → y.1.bare = x.1.bare →
      y.2.rest <:+ x.2.rest ∧ y.2.rest.length < x.2.rest.length := by
  refine ⟨fun tokens => ?_, allForward, fun s hs => object_moves hs, routinesRun, fun x y h hbare => ?_⟩
  · have hinit : anything.Inv (.ofTokens tokens) := trivial
    have hparse := anything.parse_keeps hinit
    cases hrun : parse tokens with
    | ok parsed => exact .inl ⟨parsed, rfl⟩
    | error f =>
      rw [hrun] at hparse
      have hf : f = .overflow := hparse
      refine .inr ⟨by rw [hf], fun hnonneg => ?_⟩
      obtain ⟨parsed, hparsed, -⟩ := parse_sound hnonneg
      rw [hrun] at hparsed
      cases hparsed
  · have hdown := Routine.descends_of_transGen h
    refine ⟨hdown.rest, ?_⟩
    have hrank := Routine.rank_eq_of_bare hbare
    rcases hdown.lower with hlt | hlt
    · exact hlt
    · omega

/-- In front of `- - 1`. -/
def beforeSigns : State :=
  .ofTokens [⟨.punctuator, "-", none, .start⟩, ⟨.punctuator, "-", none, .start⟩,
    ⟨.num, "1", some 1, .start⟩]

/-- The operand of a sign is read by the routine that reads the sign. -/
theorem signs_shorter :
    Relation.TransGen Routine.Calls (.unary, beforeSigns)
      (.unary, { beforeSigns with rest := beforeSigns.rest.tail }) ∧
    beforeSigns.rest.tail.length < beforeSigns.rest.length := by
  have hcalls : Routine.Calls (.unary, beforeSigns)
      (.unary, { beforeSigns with rest := beforeSigns.rest.tail }) := by
    have hplus : beforeSigns.current.is "+" = false := by decide
    have hminus : beforeSigns.current.is "-" = true := by decide
    unfold Routine.Calls Routine.body
    rw [Parser.run_here_bind]
    simp only [Parser.run_bind, Parser.run_accept, hplus, hminus, if_true, Bool.false_eq_true,
      if_false, Outcome.andThen_ok, Routine.without, Outcome.andThen_faulted]
  exact ⟨.single hcalls, (parse_halts.2.2.2.2 _ _ (.single hcalls) rfl).2⟩

end WordC.Parse
