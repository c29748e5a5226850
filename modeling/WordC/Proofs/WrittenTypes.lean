import WordC.Proofs.ArgumentSteps
import WordC.Proofs.Compatibility

/-!
# Types told apart by how they are written

A type is written from the inside out, so the outermost constructor stands last and lengths of any
number of digits stand in between. Reading from the front takes the constructors in the order in which
they were applied: what has been read up to some point is the written form of a part of the type, and
the reader has just this part in hand.

* `Ty.length?_toString`, `Ty.extend?_length`: a length in brackets is read whole and read right, whatever
  its sign and its digits.
* `Ty.ofText?_append`: behind the written form of a type, the reader has that type in hand.
* `Ty.ofText?_text`, `Ty.text_inj`: the written form gives the type back, so it determines it.
* `types_written_apart`: no warning about an argument shows one form for both of its types.
-/
namespace WordC

namespace Ty

/-! ## Lengths -/

theorem isDigit_of_mem_repr {n : Nat} {c : Char} (h : c ∈ n.repr.toList) : c.isDigit := by
  rw [Nat.repr_eq_ofList_toDigits, String.toList_ofList] at h
  exact Nat.isDigit_of_mem_toDigits (by decide) (by decide) h

theorem natural?_repr (n : Nat) : natural? n.repr.toList = some n := by
  have hdigits : n.repr.toList.all Char.isDigit :=
    List.all_eq_true.2 fun _ hc => isDigit_of_mem_repr hc
  rw [Nat.repr_eq_ofList_toDigits, String.toList_ofList] at hdigits ⊢
  rw [natural?, if_pos ⟨Nat.toDigits_ne_nil, hdigits⟩, Nat.ofDigitChars_ten_toDigits]

/-- A length is written with digits, and with a minus sign in front of them if it is negative. -/
theorem toString_length (len : Int) :
    (∃ n : Nat, len = n ∧ (toString len).toList = n.repr.toList) ∨
      ∃ n : Nat, len = -n ∧ (toString len).toList = '-' :: n.repr.toList := by
  rw [Int.toString_eq_repr, Int.repr_eq_if]
  by_cases hlen : 0 ≤ len
  · refine .inl ⟨len.toNat, by omega, ?_⟩
    rw [if_pos hlen]
  · refine .inr ⟨(-len).toNat, by omega, ?_⟩
    rw [if_neg hlen]
    simp

theorem length?_toString (len : Int) : length? (toString len).toList = some len := by
  rcases toString_length len with ⟨n, hn, htext⟩ | ⟨n, hn, htext⟩
  · have hunsigned : ∀ ds, n.repr.toList ≠ '-' :: ds := by
      intro ds hds
      have hsign := isDigit_of_mem_repr (hds ▸ List.mem_cons_self)
      exact absurd hsign (by decide)
    rw [htext, length?, natural?_repr, Option.map_some, hn]
    exact hunsigned
  · rw [htext, length?, natural?_repr, Option.map_some, hn]

/-- The bracket behind a length is the first one. -/
theorem bracket_notMem_length (len : Int) : ']' ∉ (toString len).toList := by
  have hdigits (n : Nat) : ']' ∉ n.repr.toList :=
    fun hmem => absurd (isDigit_of_mem_repr hmem) (by decide)
  rcases toString_length len with ⟨n, -, htext⟩ | ⟨n, -, htext⟩
  · rw [htext]
    exact hdigits n
  · rw [htext]
    exact List.not_mem_cons_of_ne_of_not_mem (by decide) (hdigits n)

/-- Characters of a length are put aside, last first, as long as none of them closes the bracket. -/
theorem extend?_open (ty : Ty) {cs : List Char} (h : ']' ∉ cs) (ds rest : List Char) :
    extend? ty (some ds) (cs ++ rest) = extend? ty (some (cs.reverse ++ ds)) rest := by
  induction cs generalizing ds with
  | nil => rfl
  | cons c cs ih =>
    obtain ⟨hc, hcs⟩ := List.ne_and_not_mem_of_not_mem_cons h
    calc extend? ty (some ds) (c :: (cs ++ rest))
      _ = extend? ty (some (c :: ds)) (cs ++ rest) := by
        rw [extend?]
        exact fun hclose => hc hclose.symm
      _ = extend? ty (some (cs.reverse ++ c :: ds)) rest := ih hcs (c :: ds)
      _ = extend? ty (some ((c :: cs).reverse ++ ds)) rest := by simp

theorem extend?_length (ty : Ty) (len : Int) (rest : List Char) :
    extend? ty none ('[' :: ((toString len).toList ++ ']' :: rest)) =
      extend? (array ty len) none rest := by
  rw [extend?, extend?_open ty (bracket_notMem_length len), extend?, List.append_nil,
    List.reverse_reverse, length?_toString]

/-! ## Types -/

/-- The reader comes past the written form of a type with the type in hand, whatever stands behind
it. -/
theorem ofText?_append (t : Ty) (rest : List Char) :
    ofText? (String.ofList (t.text.toList ++ rest)) = extend? t none rest := by
  induction t generalizing rest with
  | int => simp [ofText?, text]
  | ptr base ih =>
    calc ofText? (String.ofList ((base.text ++ "*").toList ++ rest))
      _ = ofText? (String.ofList (base.text.toList ++ '*' :: rest)) := by simp
      _ = extend? base none ('*' :: rest) := ih _
      _ = extend? (ptr base) none rest := by rw [extend?]
  | array base len ih =>
    calc ofText? (String.ofList ((base.text ++ "[" ++ toString len ++ "]").toList ++ rest))
      _ = ofText? (String.ofList
            (base.text.toList ++ '[' :: ((toString len).toList ++ ']' :: rest))) := by simp
      _ = extend? base none ('[' :: ((toString len).toList ++ ']' :: rest)) := ih _
      _ = extend? (array base len) none rest := extend?_length base len rest
  | func ret ih =>
    calc ofText? (String.ofList ((ret.text ++ "()").toList ++ rest))
      _ = ofText? (String.ofList (ret.text.toList ++ '(' :: ')' :: rest)) := by simp
      _ = extend? ret none ('(' :: ')' :: rest) := ih _
      _ = extend? (func ret) none rest := by rw [extend?]

/-- Reading the written form of a type gives the type back. -/
theorem ofText?_text (t : Ty) : ofText? t.text = some t := by
  have hread := ofText?_append t []
  rwa [List.append_nil, String.ofList_toList, extend?] at hread

theorem text_inj {a b : Ty} : a.text = b.text ↔ a = b := by
  constructor
  · intro h
    have hread := ofText?_text a
    rw [h, ofText?_text b] at hread
    exact (Option.some.inj hread).symm
  · rintro rfl
    rfl

/-- Types that are not compatible are not written alike. -/
theorem text_ne_of_not_compatible {a b : Ty} (h : ¬a.compatible b) : a.text ≠ b.text := by
  intro htext
  rw [text_inj.1 htext] at h
  exact h (compatible_equivalence.refl b)

end Ty

/-! ## Warnings -/

/-- **The written form of a type determines it.** Whatever its nesting and its lengths, a type can be read
back from its written form, so only equal types are written alike. A warning about an argument names the
type of the parameter and that of the argument, and since there is one only where these are not
compatible, it never shows the same form twice. -/
theorem types_written_apart :
    (∀ t : Ty, Ty.ofText? t.text = some t) ∧
    (∀ a b : Ty, a.text = b.text ↔ a = b) ∧
    ∀ (callee : String) (index : Nat) (args : List Argument) (params : List Ty),
      ∀ issue ∈ Argument.mismatches callee index args params, ∃ i arg param,
        args[i]? = some arg ∧ params[i]? = some param ∧
        issue.toDiagnostic = ⟨.warning, arg.loc,
          "incompatible type for argument " ++ toString (index + i) ++ " of '" ++ callee ++
            "': expected '" ++ param.text ++ "', found '" ++ arg.ty.text ++ "'"⟩ ∧
        param.text ≠ arg.ty.text := by
  refine ⟨Ty.ofText?_text, fun a b => Ty.text_inj, fun callee index args params issue hissue => ?_⟩
  obtain ⟨i, arg, param, harg, hparam, hother, rfl⟩ := Argument.mem_mismatches.1 hissue
  exact ⟨i, arg, param, harg, hparam, rfl, (Ty.text_ne_of_not_compatible hother).symm⟩

/-- A pointer to an array of a negative length, passed where a pointer to words is expected. -/
def oddArgument : Argument := ⟨.ptr (.array .int (-12)), ⟨1, 5⟩⟩

theorem oddArgument_written_apart :
    oddArgument.ty.text = "int[-12]*" ∧ Ty.ofText? "int[-12]*" = some oddArgument.ty ∧
    ∃ issue ∈ Argument.mismatches "f" 1 [oddArgument] [.ptr .int],
      issue.toDiagnostic.message =
        "incompatible type for argument 1 of 'f': expected 'int*', found 'int[-12]*'" ∧
      (Ty.ptr .int).text ≠ oddArgument.ty.text := by
  obtain ⟨hread, -, hwarned⟩ := types_written_apart
  have htext : oddArgument.ty.text = "int[-12]*" := by decide +kernel
  have hmem : .caution ⟨1, 5⟩ (.argumentMismatch 1 "f" (.ptr .int) oddArgument.ty) ∈
      Argument.mismatches "f" 1 [oddArgument] [.ptr .int] := .head _
  obtain ⟨i, arg, param, harg, hparam, -, hapart⟩ := hwarned _ _ _ _ _ hmem
  rw [List.mem_singleton.1 (List.mem_of_getElem? harg),
    List.mem_singleton.1 (List.mem_of_getElem? hparam)] at hapart
  exact ⟨htext, htext ▸ hread _, _, hmem, by decide +kernel, hapart⟩

end WordC
