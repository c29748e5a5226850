import Mathlib.Data.List.Nodup
import WordC.Emit.Program
import WordC.Token.Segment
import WordC.Proofs.Tree

/-!
# Labels

A jump goes to the line that is spelled like its target, so control flow rests on two facts: different
labels are spelled differently, and no label is defined twice.

* `Label.text_inj`: labels over identifiers are spelled apart. An identifier has no dot in it, and
  the names of all other labels start with one.
* `Stmt.numbered_flow`: the labels of a statement bear the numbers that it takes, and no label is
  there twice.
-/
namespace WordC

open Asm

/-! ## Spelling -/

/-- A letter or underscore, and then letters, digits and underscores. -/
def isIdentifier (name : String) : Bool :=
  match name.toList with
  | c :: cs => Segment.isWordStart c && cs.all Segment.isWordPart
  | [] => false

namespace Asm.Label

/-- The name of an object in a label. -/
def name? : Label → Option String
  | symbol name => some name
  | leave f => some f
  | _ => none

/-- If a name is in the label, it is an identifier. -/
def Proper (l : Label) : Prop := ∀ name ∈ l.name?, isIdentifier name

theorem toString_inj {m n : Nat} (h : (toString m).toList = (toString n).toList) : m = n := by
  simp only [Nat.toString_eq_ofList_toDigits, String.toList_ofList] at h
  rw [← Nat.ofDigitChars_ten_toDigits (n := m), h, Nat.ofDigitChars_ten_toDigits]

theorem head_ne_dot {name : String} (h : isIdentifier name) : name.toList.head? ≠ some '.' := by
  unfold isIdentifier at h
  split at h
  · rename_i c cs hcs
    rw [hcs]
    rintro hc
    cases hc
    simp [Segment.isWordStart] at h
  · cases h

/-- Different labels over identifiers are spelled differently. -/
theorem text_inj {l l' : Label} (hl : l.Proper) (hl' : l'.Proper) (h : l.text = l'.text) :
    l = l' := by
  replace h : l.text.toList = l'.text.toList := congrArg String.toList h
  cases l with
  | symbol name =>
    cases l' with
    | symbol name' => exact congrArg symbol (String.toList_inj.1 h)
    | orElse n | done n | begin n | leave n =>
      simp only [text, String.toList_append] at h
      exact absurd (congrArg List.head? h) (head_ne_dot (hl name rfl))
  | orElse m =>
    cases l' <;> simp only [text, String.toList_append] at h
    case symbol name => exact absurd (congrArg List.head? h).symm (head_ne_dot (hl' name rfl))
    case orElse n => exact congrArg orElse (toString_inj (List.append_cancel_left h))
    all_goals simp at h
  | done m =>
    cases l' <;> simp only [text, String.toList_append] at h
    case symbol name => exact absurd (congrArg List.head? h).symm (head_ne_dot (hl' name rfl))
    case done n => exact congrArg done (toString_inj (List.append_cancel_left h))
    all_goals simp at h
  | begin m =>
    cases l' <;> simp only [text, String.toList_append] at h
    case symbol name => exact absurd (congrArg List.head? h).symm (head_ne_dot (hl' name rfl))
    case begin n => exact congrArg begin (toString_inj (List.append_cancel_left h))
    all_goals simp at h
  | leave f =>
    cases l' <;> simp only [text, String.toList_append] at h
    case symbol name => exact absurd (congrArg List.head? h).symm (head_ne_dot (hl' name rfl))
    case leave g => exact congrArg leave (String.toList_inj.1 (List.append_cancel_left h))
    all_goals simp at h

/-- The number of a label inside a function. -/
def number? : Label → Option Nat
  | orElse n => some n
  | done n => some n
  | begin n => some n
  | _ => none

theorem name?_of_number? {l : Label} {n : Nat} (h : l.number? = some n) : l.name? = none := by
  cases l <;> first | rfl | cases h

/-- Different labels, all of them with numbers above `lo` and up to `hi`. -/
def Numbered (lo hi : Nat) (ls : List Label) : Prop :=
  ls.Nodup ∧ ∀ l ∈ ls, ∃ n, l.number? = some n ∧ lo < n ∧ n ≤ hi

namespace Numbered

variable {lo mid hi : Nat} {ls ls' : List Label}

theorem nil : Numbered lo hi [] := ⟨List.nodup_nil, fun _ h => by cases h⟩

theorem append (h : Numbered lo mid ls) (h' : Numbered mid hi ls') (hlo : lo ≤ mid)
    (hhi : mid ≤ hi) : Numbered lo hi (ls ++ ls') := by
  refine ⟨List.nodup_append'.2 ⟨h.1, h'.1, fun l hl hl' => ?_⟩, fun l hl => ?_⟩
  · obtain ⟨n, hn, -, hle⟩ := h.2 l hl
    obtain ⟨n', hn', hlt, -⟩ := h'.2 l hl'
    cases hn.symm.trans hn'
    omega
  · rcases List.mem_append.1 hl with hl | hl
    · obtain ⟨n, hn, h1, h2⟩ := h.2 l hl
      exact ⟨n, hn, h1, by omega⟩
    · obtain ⟨n, hn, h1, h2⟩ := h'.2 l hl
      exact ⟨n, hn, by omega, h2⟩

theorem perm (h : Numbered lo hi ls) (hp : ls.Perm ls') : Numbered lo hi ls' :=
  ⟨hp.nodup_iff.1 h.1, fun l hl => h.2 l (hp.mem_iff.2 hl)⟩

/-- The two labels of a conditional. -/
theorem conditional (n : Nat) : Numbered n (n + 1) [orElse (n + 1), done (n + 1)] :=
  ⟨by simp, by simp [number?]⟩

/-- The two labels of a loop. -/
theorem rounds (n : Nat) : Numbered n (n + 1) [begin (n + 1), done (n + 1)] :=
  ⟨by simp, by simp [number?]⟩

end Numbered

end Asm.Label

/-! ## The labels of statements -/

namespace Flow

/-- The label that a step defines. -/
def label? : Flow → Option Label
  | label l => some l
  | _ => none

/-- The labels that the given steps define. -/
def labels (fs : List Flow) : List Label := fs.filterMap label?

@[simp, grind =] theorem labels_nil : labels [] = [] := rfl

@[simp, grind =] theorem labels_eval (e : Expr) (fs : List Flow) :
    labels (eval e :: fs) = labels fs := rfl

@[simp, grind =] theorem labels_branchZero (l : Label) (fs : List Flow) :
    labels (branchZero l :: fs) = labels fs := rfl

@[simp, grind =] theorem labels_jump (l : Label) (fs : List Flow) :
    labels (jump l :: fs) = labels fs := rfl

@[simp, grind =] theorem labels_label (l : Label) (fs : List Flow) :
    labels (label l :: fs) = l :: labels fs := rfl

@[simp, grind =] theorem labels_append (fs gs : List Flow) :
    labels (fs ++ gs) = labels fs ++ labels gs :=
  List.filterMap_append

@[simp, grind =] theorem labels_evalOption (e : Option Expr) : labels (evalOption e) = [] := by
  cases e <;> rfl

@[simp, grind =] theorem labels_testOption (l : Label) (e : Option Expr) :
    labels (testOption l e) = [] := by
  cases e <;> rfl

end Flow

namespace Stmt

open Label (Numbered)

/-- The labels of a statement have the numbers from `used + 1` on, as many as it takes. -/
theorem numbered_flow (f : String) (s : Stmt) : ∀ used,
    Numbered used (used + s.labels) (Flow.labels (s.flow f used)) := by
  induction s with
  | eval e => intro used; simpa [flow] using Numbered.nil
  | ret value => intro used; simpa [flow] using Numbered.nil
  | block stmts ih =>
    simp only [flow, labels]
    induction stmts with
    | nil => intro used; exact Numbered.nil
    | cons s ss ihs =>
      intro used
      obtain ⟨hs, hss⟩ := List.forall_mem_cons.1 ih
      simp only [flowAll, labelsAll, Flow.labels_append, ← Nat.add_assoc]
      exact (hs used).append (ihs hss _) (by omega) (by omega)
  | ite cond onTrue onFalse iht ihf =>
    intro used
    have htrue := (Numbered.conditional used).append (iht (used + 1)) (by omega) (by omega)
    cases onFalse with
    | none =>
      simp only [flow, labels, ← Nat.add_assoc]
      refine htrue.perm (List.perm_iff_count.2 fun l => ?_)
      simp [List.count_cons]
      omega
    | some onFalse =>
      simp only [flow, labels, ← Nat.add_assoc]
      refine (htrue.append (ihf onFalse rfl _) (by omega) (by omega)).perm
        (List.perm_iff_count.2 fun l => ?_)
      simp [List.count_cons]
      omega
  | loop init cond step body ihi ihb =>
    intro used
    cases init with
    | none =>
      simp only [flow, labels, ← Nat.add_assoc]
      refine ((Numbered.rounds used).append (ihb (used + 1)) (by omega) (by omega)).perm
        (List.perm_iff_count.2 fun l => ?_)
      simp [List.count_cons]
    | some init =>
      simp only [flow, labels, ← Nat.add_assoc]
      refine (((Numbered.rounds used).append (ihi init rfl (used + 1)) (by omega) (by omega)).append
        (ihb _) (by omega) (by omega)).perm (List.perm_iff_count.2 fun l => ?_)
      simp [List.count_cons]
      omega

end Stmt

end WordC
