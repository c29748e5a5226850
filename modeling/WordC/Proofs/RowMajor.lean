import Mathlib.Algebra.Order.BigOperators.GroupWithZero.List
import Mathlib.Tactic.Linarith
import Mathlib.Tactic.Ring
import WordC.Proofs.Consuming
import WordC.Proofs.PointerArithmetic
import WordC.Proofs.ReadBack
import WordC.Proofs.Routines

/-!
# Arrays in row-major order

The lengths of a declarator nest from the right, a subscript takes off the outermost one, and its index
is scaled by the size of what is left. An element that is an array again is not loaded, so the next
subscript goes on from its address. Together, the words of an array are numbered in row-major order.

* `rowMajor`, `InBounds`: the number of an element. `rowMajor_bounds`, `rowMajor_injective` and
  `exists_rowMajor`: the tuples in bounds are numbered from zero, without gaps or repetitions.
* `Expr.PlaceAt`: a place with an address that does not depend on the situation;
  `PlaceAt.subscript`: one subscript.
* `Parser.lengths_bracketed`, `Parser.subscripts_bracketed`: numbers in brackets, read as lengths and
  as indices.
* `subscripts_rowMajor`: where the elements of a declared array are.
-/
namespace WordC

/-! ## Tuples of indices -/

/-- `count` arrays of these dimensions, and then the element with these indices. -/
def rowMajorFrom (count : Int) : List Int → List Int → Int
  | dim :: dims, i :: is => rowMajorFrom (count * dim + i) dims is
  | _, _ => count

/-- The number of the element with the indices `is` in an array of the dimensions `dims`, in
row-major order. -/
def rowMajor (dims is : List Int) : Int := rowMajorFrom 0 dims is

/-- One index for each dimension, and less than it. -/
def InBounds (dims is : List Int) : Prop := List.Forall₂ (fun dim i => 0 ≤ i ∧ i < dim) dims is

section

variable {dim i : Int} {dims is js : List Int}

theorem rowMajorFrom_eq (h : InBounds dims is) : ∀ count,
    rowMajorFrom count dims is = count * dims.prod + rowMajor dims is := by
  induction h with
  | nil => intro count; simp [rowMajorFrom, rowMajor]
  | @cons dim i dims is _ _ ih =>
    intro count
    simp only [rowMajor, rowMajorFrom, List.prod_cons]
    rw [ih, ih (0 * dim + i)]
    ring

/-- The first index counts whole arrays of the other dimensions. -/
theorem rowMajor_cons (h : InBounds dims is) :
    rowMajor (dim :: dims) (i :: is) = i * dims.prod + rowMajor dims is := by
  rw [rowMajor, rowMajorFrom, rowMajorFrom_eq h]
  ring

theorem rowMajor_bounds (h : InBounds dims is) :
    0 ≤ rowMajor dims is ∧ rowMajor dims is < dims.prod := by
  induction h with
  | nil => decide
  | @cons dim i dims is hi htail ih =>
    obtain ⟨hpos, hlt⟩ := ih
    rw [rowMajor_cons htail, List.prod_cons]
    constructor
    · have := Int.mul_nonneg hi.1 (Int.le_of_lt (Int.lt_of_le_of_lt hpos hlt))
      omega
    · nlinarith

/-- The first index is the quotient by the size of a row, and the remainder is the number in it. -/
theorem rowMajor_divMod (dim i : Int) (h : InBounds dims is) :
    rowMajor (dim :: dims) (i :: is) / dims.prod = i ∧
    rowMajor (dim :: dims) (i :: is) % dims.prod = rowMajor dims is := by
  obtain ⟨hpos, hlt⟩ := rowMajor_bounds h
  refine (Int.ediv_emod_unique (Int.lt_of_le_of_lt hpos hlt)).2 ⟨?_, hpos, hlt⟩
  rw [rowMajor_cons h]
  ring

theorem rowMajor_injective (h : InBounds dims is) (h' : InBounds dims js)
    (heq : rowMajor dims is = rowMajor dims js) : is = js := by
  induction h generalizing js with
  | nil => cases h'; rfl
  | @cons dim i dims is _ htail ih =>
    cases h' with
    | @cons _ j _ js _ htail' =>
      obtain ⟨hfirst, hothers⟩ := rowMajor_divMod dim i htail
      obtain ⟨hfirst', hothers'⟩ := rowMajor_divMod dim j htail'
      rw [heq] at hfirst hothers
      rw [hfirst.symm.trans hfirst', ih htail' (hothers.symm.trans hothers')]

theorem exists_rowMajor (hpos : ∀ dim ∈ dims, 1 ≤ dim) : ∀ {n : Int}, 0 ≤ n → n < dims.prod →
    ∃ is, InBounds dims is ∧ rowMajor dims is = n := by
  induction dims with
  | nil =>
    intro n hn hlt
    have : n = 0 := by simp at hlt; omega
    exact ⟨[], .nil, this.symm⟩
  | cons dim dims ih =>
    obtain ⟨hdim, hdims⟩ := List.forall_mem_cons.1 hpos
    intro n hn hlt
    rw [List.prod_cons] at hlt
    have hprod : 0 < dims.prod := List.prod_pos fun d hd => by have := hdims d hd; omega
    obtain ⟨is, his, hrow⟩ := ih hdims (Int.emod_nonneg n (by omega)) (Int.emod_lt_of_pos n hprod)
    refine ⟨n / dims.prod :: is, .cons ⟨Int.ediv_nonneg hn (by omega), ?_⟩ his, ?_⟩
    · exact Int.ediv_lt_of_lt_mul hprod hlt
    · rw [rowMajor_cons his, hrow, Int.mul_comm]
      exact Int.mul_ediv_add_emod n dims.prod

end

/-! ## Types of arrays -/

namespace Ty

/-- An array of the given dimensions, the first one outermost. -/
def nested (dims : List Int) (elem : Ty) : Ty := dims.foldr (fun dim inner => .array inner dim) elem

variable {elem : Ty} {size bytes : Int} {dim : Int} {dims : List Int}

theorem size_array : (array elem dim).size = .ok bytes ↔
    ∃ size, elem.size = .ok size ∧ Word.Fits (size * dim) ∧ bytes = size * dim := by
  rw [size, Word.bind_eq_ok_iff]
  simp only [Word.mul, Word.check_eq_ok_iff]

theorem size_nested (helem : elem.size = .ok size) (h : (nested dims elem).size = .ok bytes) :
    bytes = size * dims.prod := by
  induction dims generalizing bytes with
  | nil =>
    cases helem.symm.trans h
    simp
  | cons dim dims ih =>
    obtain ⟨inner, hinner, -, rfl⟩ := size_array.1 h
    rw [ih hinner, List.prod_cons]
    ring

end Ty

/-! ## Places -/

namespace Expr

/-- The expression is a place of this type, and evaluating its address gives `address` and changes
nothing, whatever the situation. -/
structure PlaceAt (e : Expr) (ty : Ty) (address : World → Quad → Quad) : Prop where
  lvalue : e.isLvalue
  ty_eq : e.ty = ty
  evalAddress_eq : ∀ (W : World) (base : Quad) (σ : W.Situation),
    e.evalAddress W base σ = some (address W base, σ)

namespace PlaceAt

variable {e : Expr} {ty : Ty} {address : World → Quad → Quad}

theorem mkVar (v : Var) (loc : Loc) :
    (Expr.mkVar v loc).PlaceAt v.ty (fun W base => W.address base v) :=
  ⟨rfl, rfl, fun _ _ _ => rfl⟩

/-- An array is not loaded: its value is its address. -/
theorem eval_array {dim : Int} (h : e.PlaceAt (.array ty dim) address) (W : World) (base : Quad)
    (σ : W.Situation) : e.eval W base σ = some (address W base, σ) := by
  obtain ⟨hlvalue, hty, haddress⟩ := h
  cases e with
  | num value ty loc | binary op lhs rhs ty loc | assign lhs rhs ty loc | call callee args ty loc =>
    cases hlvalue
  | var v ty' loc =>
    cases hty
    exact haddress W base σ
  | unary op operand ty' loc =>
    cases op with
    | neg | addr => cases hlvalue
    | deref =>
      cases hty
      have hvalue : operand.eval W base σ = some (address W base, σ) := haddress W base σ
      simp only [eval, bind, StateT.bind, hvalue, Option.bind_some]
      rfl

/-- One subscript: the place is so many elements behind the array. -/
theorem subscript {dim i size : Int} {loc : Loc} (h : e.PlaceAt (.array ty dim) address)
    (hsize : ty.size = .ok size) (index : Loc) :
    ∃ sum element, plus e (mkNum i index) loc = .ok sum ∧ mkUnary .deref sum loc = .ok element ∧
      element.PlaceAt ty (fun W base => address W base + BitVec.ofInt 64 (i * size)) := by
  have hbase : e.ty.base? = some ty := by rw [h.ty_eq]; rfl
  have hplus : plus e (mkNum i index) loc = .ok (stepped .add e (mkNum i index) size loc) :=
    plus_left (Ty.isPointer_of_base hbase) rfl ((Ty.stride_of_base hbase).trans hsize)
  have hsum : (stepped .add e (mkNum i index) size loc).ty.base? = some ty := base_sum.trans hbase
  refine ⟨_, unary .deref (stepped .add e (mkNum i index) size loc) ty loc, hplus, ?_, rfl, rfl, ?_⟩
  · unfold mkUnary
    rw [hsum]
  · intro W base σ
    have hvalue : (stepped .add e (mkNum i index) size loc).eval W base σ =
        some (address W base + BitVec.ofInt 64 i * BitVec.ofInt 64 size, σ) :=
      eval_sum (h.eval_array W base σ) rfl
    rw [BitVec.ofInt_mul]
    exact hvalue

end PlaceAt

end Expr

/-! ## Numbers in brackets -/

namespace Parse

open Grammar

/-- The tokens `ts` are the values in brackets, and behind them no further bracket opens. -/
structure Bracketed (values : List Int) (ts rest : List Token) : Prop where
  front : ∃ front ∈ brackets values, ts = front ++ rest
  stops : ∀ t ∈ rest.head?, t.is "[" = false

namespace Bracketed

variable {value : Int} {values : List Int} {ts rest : List Token}

theorem nil (h : Bracketed [] ts rest) : ts = rest := by
  obtain ⟨front, hfront, rfl⟩ := h.front
  cases hfront
  rfl

theorem cons (h : Bracketed (value :: values) ts rest) :
    ∃ opening number closing more, ts = opening :: number :: closing :: more ∧ opening.is "[" ∧
      (number.kind = .num ∧ number.value = some value) ∧ closing.is "]" ∧
      Bracketed values more rest := by
  obtain ⟨front, hfront, rfl⟩ := h.front
  obtain ⟨_, ⟨opening, hopening, rfl⟩, _, hbehind, rfl⟩ := Language.mem_mul.1 hfront
  obtain ⟨_, ⟨number, hnumber, rfl⟩, _, hclose, rfl⟩ := Language.mem_mul.1 hbehind
  obtain ⟨_, ⟨closing, hclosing, rfl⟩, more, hmore, rfl⟩ := Language.mem_mul.1 hclose
  exact ⟨opening, number, closing, more ++ rest, rfl, hopening, hnumber, hclosing,
    ⟨more, hmore, rfl⟩, h.stops⟩

/-- Where the values end, no bracket opens. -/
theorem current {s : State} (h : Bracketed [] s.rest rest) : s.current.is "[" = false := by
  have hstops := h.stops
  rw [← h.nil] at hstops
  unfold State.current
  cases hrest : s.rest with
  | nil => rfl
  | cons t ts => exact hstops t (by rw [hrest]; rfl)

end Bracketed

namespace Parser

/-! ### As lengths -/

theorem arrayOf_size {s s' : State} {base ty : Ty} {len : Int} {loc : Loc}
    (h : (arrayOf base len loc).run s = .ok ty s') :
    ∃ bytes, (Ty.array base len).size = .ok bytes := by
  unfold arrayOf at h
  obtain ⟨size, s₁, h₁, h⟩ := bind_ok h
  cases hsize : base.size with
  | error f => rw [hsize] at h₁; cases h₁
  | ok bytes =>
    rw [hsize] at h₁
    cases h₁
    split at h
    · rename_i total htotal
      exact ⟨total, Word.bind_eq_ok_iff.2 ⟨size, hsize, htotal⟩⟩
    · cases h

/-- Lengths in brackets are the dimensions of the array, and its size is a word. -/
theorem lengths_bracketed {elem : Ty} {size : Int} (helem : elem.size = .ok size)
    {dims : List Int} {rest : List Token} : ∀ {budget : Nat} {s s' : State} {ty : Ty},
    Bracketed dims s.rest rest → (lengths budget elem).run s = .ok ty s' →
    ty = .nested dims elem ∧ ∃ bytes, ty.size = .ok bytes := by
  induction dims with
  | nil =>
    intro budget s s' ty hdims h
    cases budget with
    | zero => cases h
    | succ budget =>
      rw [lengths, run_bind, run_accept_of_not hdims.current] at h
      cases h
      exact ⟨rfl, size, helem⟩
  | cons dim dims ih =>
    intro budget s s' ty hdims h
    cases budget with
    | zero => cases h
    | succ budget =>
      obtain ⟨o, n, c, more, hrest, ho, ⟨hkind, hvalue⟩, hc, hmore⟩ := hdims.cons
      rw [lengths, run_bind, run_accept_of_is hrest ho, Outcome.andThen_ok, if_pos rfl, run_here_bind,
        run_bind, run_number rfl hkind hvalue, Outcome.andThen_ok, run_bind, run_expect_of_is rfl hc,
        Outcome.andThen_ok] at h
      obtain ⟨inner, s₁, hinner, harray⟩ := bind_ok h
      obtain ⟨rfl, -⟩ := ih hmore hinner
      obtain ⟨bytes, hbytes⟩ := arrayOf_size harray
      obtain ⟨-, rfl⟩ := arrayOf_ok harray
      exact ⟨rfl, bytes, hbytes⟩

/-! ### As indices -/

variable {s s' : State} {b : Nat}

/-- An operand alone is a chain without operators. -/
theorem reader_alone (ℓ : Level) {e : Expr} (h : (reader (ℓ.rung + 1) b).run s = .ok e s')
    (hcloses : Closes 0 s'.current) : (reader ℓ.rung (b + 2)).run s = .ok e s' := by
  rw [reader_rung, chain, run_bind, operand_succ, h]
  exact chainFrom_closed (hcloses.mono (Nat.zero_le _))

/-- A number in front of a closing bracket is an expression. -/
theorem assign_number {n c : Token} {more : List Token} {value : Int}
    (hrest : s.rest = n :: c :: more) (hkind : n.kind = .num) (hvalue : n.value = some value)
    (hc : c.is "]") :
    (assign (b + 12)).run s = .ok (.mkNum value n.loc) { s with rest := c :: more } := by
  have hcloses : Closes 0 (State.current { s with rest := c :: more }) := closes_of_is hc (by decide)
  have hunary : (reader 5 (b + 3)).run s = .ok (.mkNum value n.loc) { s with rest := c :: more } := by
    show (unary (b + 3)).run s = _
    rw [unary_unsigned, primary_num hrest hkind hvalue]
    · exact subscripts_closed (hcloses.mono (by decide))
    · intro sign _
      rw [State.current_of_rest hrest]
      exact Token.is_eq_false (.inr hkind) sign
  have hproduct := reader_alone .multiplicative hunary hcloses
  have hsum := reader_alone .additive hproduct hcloses
  have hcomparison := reader_alone .relational hsum hcloses
  have hequality := reader_alone .equality hcomparison hcloses
  replace hequality : (chain (b + 11) .equality).run s = _ := hequality
  have hequals := hcloses ("=", 0) (by decide) (by decide)
  rw [assign, run_bind, hequality, Outcome.andThen_ok, run_here_bind, run_bind,
    run_accept_of_not hequals]
  rfl

/-- Indices in brackets select an element, one dimension after another. -/
theorem subscripts_bracketed {elem : Ty} {size : Int} (helem : elem.size = .ok size)
    {dims is : List Int} (his : InBounds dims is) {rest : List Token} :
    ∀ {s : State} {budget : Nat} {e : Expr} {bytes : Int} {address : World → Quad → Quad},
    (Ty.nested dims elem).size = .ok bytes → e.PlaceAt (.nested dims elem) address →
    Bracketed is s.rest rest → 16 * s.rest.length + 1 ≤ budget →
    ∃ e', (subscripts budget e).run s = .ok e' { s with rest := rest } ∧
      e'.PlaceAt elem fun W base => address W base + BitVec.ofInt 64 (size * rowMajor dims is) := by
  induction his with
  | nil =>
    intro s budget e bytes address hbytes he hs hbudget
    obtain ⟨b, rfl⟩ : ∃ b, budget = b + 1 := ⟨budget - 1, by omega⟩
    refine ⟨e, ?_, ?_⟩
    · rw [subscripts, run_here_bind, run_bind, run_accept_of_not hs.current, ← hs.nil]
      rfl
    · have hsame :
          (fun W base => address W base + BitVec.ofInt 64 (size * rowMajor [] [])) = address := by
        funext W base
        simp [rowMajor, rowMajorFrom]
      rw [hsame]
      exact he
  | @cons dim i dims is hi htail ih =>
    intro s budget e bytes address hbytes he hs hbudget
    obtain ⟨o, n, c, more, hrest, ho, ⟨hkind, hvalue⟩, hc, hmore⟩ := hs.cons
    have hlen : s.rest.length = more.length + 3 := by rw [hrest]; rfl
    obtain ⟨b, rfl⟩ : ∃ b, budget = b + 13 := ⟨budget - 13, by omega⟩
    obtain ⟨inner, hinner, -, rfl⟩ := Ty.size_array.1 hbytes
    obtain ⟨sum, element, hplus, hderef, hplace⟩ := he.subscript (i := i) hinner n.loc
    have hleft : 16 * more.length + 1 ≤ b + 12 := by omega
    obtain ⟨e', hrun, hplace'⟩ := ih hinner hplace (s := { s with rest := more }) hmore hleft
    refine ⟨e', ?_, ?_⟩
    · rw [subscripts_bracket hrest ho, assign_number rfl hkind hvalue hc, Outcome.andThen_ok,
        run_expect_of_is rfl hc, Outcome.andThen_ok, hplus]
      show ((ofRejection (Expr.mkUnary .deref sum o.loc)).run _).andThen _ = _
      rw [hderef]
      exact hrun
    · have hcount : i * inner + size * rowMajor dims is = size * rowMajor (dim :: dims) (i :: is) := by
        rw [rowMajor_cons htail, Ty.size_nested helem hinner]
        ring
      simpa only [BitVec.add_assoc, ← BitVec.ofInt_add, hcount] using hplace'

/-- A variable and its indices. -/
theorem subscripted_bracketed {elem : Ty} {size bytes : Int} (helem : elem.size = .ok size)
    {dims is : List Int} (hne : dims ≠ []) (his : InBounds dims is)
    (hbytes : (Ty.nested dims elem).size = .ok bytes) {name : Token} {ts rest : List Token} {v : Var}
    {budget : Nat} (hrest : s.rest = name :: ts) (hkind : name.kind = .ident)
    (hvar : s.var? name.lexeme = some v) (hty : v.ty = .nested dims elem) (hts : Bracketed is ts rest)
    (hbudget : Routine.subscripted.need s.rest.length ≤ budget) :
    ∃ e, (subscripted budget).run s = .ok e { s with rest := rest } ∧
      e.PlaceAt elem fun W base => W.address base v + BitVec.ofInt 64 (size * rowMajor dims is) := by
  replace hbudget : 16 * s.rest.length + 3 ≤ budget := hbudget
  obtain ⟨b, rfl⟩ : ∃ b, budget = b + 2 := ⟨budget - 2, by omega⟩
  have hvariable : (primary (b + 1)).run s = .ok (.mkVar v name.loc) { s with rest := ts } := by
    have hknown : State.var? { s with rest := ts } name.lexeme = some v := hvar
    rw [primary_variable hrest hkind, variableOf, run_get_bind, hknown]
    · rfl
    · -- The indices come next, so the name is not called.
      cases his with
      | nil => exact absurd rfl hne
      | cons =>
        obtain ⟨o, n, c, more, rfl, ho, -⟩ := hts.cons
        exact (Token.is_of_is ho "(").trans (by decide)
  have hplace := Expr.PlaceAt.mkVar v name.loc
  rw [hty] at hplace
  have hleft : 16 * ts.length + 1 ≤ b + 1 := by
    rw [hrest, List.length_cons] at hbudget
    omega
  rw [subscripted, run_bind, hvariable]
  exact subscripts_bracketed helem his hbytes hplace (s := { s with rest := ts }) hts hleft

end Parser

/-- **Subscripts address arrays in row-major order.** Let `[d₁]…[dₖ]` be read as the dimensions of an
array of integers or pointers, each of them at least one. Then a variable of that type with the indices
`[i₁]…[iₖ]`, each less than its dimension, is read as a place that is no array. It lies as many words
behind the variable as its number in row-major order. These words are parts of the array, those of
different indices do not overlap, and there is no other word in the array. -/
theorem subscripts_rowMajor {elem ty : Ty} {dims : List Int} {s₀ s₁ : State} {rest₀ : List Token}
    (helem : elem = .int ∨ ∃ pointee, elem = .ptr pointee) (hne : dims ≠ [])
    (hpos : ∀ dim ∈ dims, 1 ≤ dim) (hdims : Bracketed dims s₀.rest rest₀)
    (haccepts : (Parser.suffixes elem).run s₀ = .ok ty s₁) :
    ∃ bytes, ty.size = .ok bytes ∧
      (∀ is, InBounds dims is →
        (∀ (s : State) (name : Token) (ts rest : List Token) (v : Var) (budget : Nat),
          s.rest = name :: ts → name.kind = .ident → s.var? name.lexeme = some v → v.ty = ty →
          Bracketed is ts rest → Routine.subscripted.need s.rest.length ≤ budget →
          ∃ e, (Parser.subscripted budget).run s = .ok e { s with rest := rest } ∧
            e.isLvalue ∧ e.ty = elem ∧ e.ty.isArray = false ∧
            ∀ (W : World) (base : Quad) (σ : W.Situation), e.evalAddress W base σ =
              some (W.address base v + BitVec.ofInt 64 (8 * rowMajor dims is), σ)) ∧
        0 ≤ 8 * rowMajor dims is ∧ 8 * rowMajor dims is + 8 ≤ bytes) ∧
      (∀ is js, InBounds dims is → InBounds dims js → is ≠ js →
        8 * rowMajor dims is + 8 ≤ 8 * rowMajor dims js ∨
        8 * rowMajor dims js + 8 ≤ 8 * rowMajor dims is) ∧
      ∀ word, 0 ≤ word → 8 * word + 8 ≤ bytes → ∃ is, InBounds dims is ∧ rowMajor dims is = word := by
  have hsize : elem.size = .ok 8 := by rcases helem with rfl | ⟨pointee, rfl⟩ <;> rfl
  have hscalar : elem.isArray = false := by rcases helem with rfl | ⟨pointee, rfl⟩ <;> rfl
  rw [Parser.suffixes, Parser.run_get_bind] at haccepts
  obtain ⟨rfl, bytes, hbytes⟩ := Parser.lengths_bracketed hsize hdims haccepts
  have htotal := Ty.size_nested hsize hbytes
  refine ⟨bytes, hbytes, fun is his => ⟨?_, ?_⟩, fun is js his hjs hdiff => ?_,
    fun word hnonneg hword => ?_⟩
  · intro s name ts rest v budget hrest hkind hvar hty hts hbudget
    obtain ⟨e, hrun, hplace⟩ :=
      Parser.subscripted_bracketed hsize hne his hbytes hrest hkind hvar hty hts hbudget
    refine ⟨e, hrun, hplace.lvalue, hplace.ty_eq, ?_, hplace.evalAddress_eq⟩
    rw [hplace.ty_eq]
    exact hscalar
  · obtain ⟨hlow, hhigh⟩ := rowMajor_bounds his
    omega
  · have hnumbers : rowMajor dims is ≠ rowMajor dims js :=
      fun heq => hdiff (rowMajor_injective his hjs heq)
    omega
  · exact exists_rowMajor hpos hnonneg (by omega)

/-- Values printed in brackets. -/
def inBrackets (values : List Int) : List Token :=
  values.flatMap fun value => [Surface.mark "[", Surface.literal value, Surface.mark "]"]

theorem bracketed_inBrackets (values : List Int) {rest : List Token}
    (h : ∀ t ∈ rest.head?, t.is "[" = false) : Bracketed values (inBrackets values ++ rest) rest := by
  refine ⟨⟨inBrackets values, ?_, rfl⟩, h⟩
  induction values with
  | nil => exact Language.nil_mem_one
  | cons value values ih =>
    have hopen : [Surface.mark "["] ∈ mark "[" := mem_single (by decide)
    have hnumber : [Surface.literal value] ∈ numberOf value := mem_single ⟨rfl, rfl⟩
    have hclose : [Surface.mark "]"] ∈ mark "]" := mem_single (by decide)
    exact (Language.append_mem_mul hopen
      (Language.append_mem_mul hnumber (Language.append_mem_mul hclose ih)) :)

/-- In front of `[2][3];`, the lengths of an array. -/
def beforeLengths : State := State.ofTokens (inBrackets [2, 3] ++ [Surface.mark ";"])

/-- In front of `m[1][2];`, where `int m[2][3]` is the only local. -/
def beforeElement : State :=
  { State.ofTokens (Surface.ident "m" :: (inBrackets [1, 2] ++ [Surface.mark ";"])) with
    scope := ⟨[⟨"m", .array (.array .int 3) 2, -48⟩], 48⟩ }

theorem matrix_rowMajor :
    ∃ s₁, (Parser.suffixes .int).run beforeLengths = .ok (.array (.array .int 3) 2) s₁ ∧
      (Ty.array (.array .int 3) 2).size = .ok 48 ∧ InBounds [2, 3] [1, 2] ∧
      ∃ e s', (Parser.subscripted 200).run beforeElement = .ok e s' ∧ e.isLvalue ∧ e.ty = .int ∧
        ∀ (W : World) (base : Quad) (σ : W.Situation), e.evalAddress W base σ =
          some (base + BitVec.ofInt 64 (-48) + BitVec.ofInt 64 40, σ) := by
  have hstops : ∀ t ∈ [Surface.mark ";"].head?, t.is "[" = false := by decide
  have hrun : (Parser.suffixes .int).run beforeLengths =
      .ok (.array (.array .int 3) 2) { beforeLengths with rest := [Surface.mark ";"] } := rfl
  have hbounds : InBounds [2, 3] [1, 2] := by
    unfold InBounds
    decide
  obtain ⟨bytes, hbytes, helements, -⟩ := subscripts_rowMajor (.inl rfl) (by decide) (by decide)
    (bracketed_inBrackets [2, 3] hstops) hrun
  obtain ⟨e, he, hlvalue, hty, -, haddress⟩ := (helements [1, 2] hbounds).1 beforeElement
    (Surface.ident "m") _ _ _ 200 rfl rfl rfl rfl (bracketed_inBrackets [1, 2] hstops) (by decide)
  exact ⟨_, hrun, by decide, hbounds, e, _, he, hlvalue, hty, haddress⟩

end Parse

end WordC
