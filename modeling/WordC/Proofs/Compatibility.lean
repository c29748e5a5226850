import WordC.Ty

/-!
# Compatible types

Whether a value of one type may stand where another one is declared does not depend on the lengths of
arrays, on whether something is an array or a pointer, or on what functions return. What is left of a
type without all this is its normal form.

* `Ty.erase`: the normal form.
* `Ty.compatible_iff`: types are compatible exactly if they have the same normal form.
* `Ty.compatible_base`: pointers and arrays are compared by what they point to.
* `Ty.compatible_lawful`: compatibility is an equivalence, decay stays within its classes, and pointers
  and arrays of compatible types are compatible, and of no others.
-/
namespace WordC.Ty

variable {a b c : Ty}

/-- The type without lengths and results of functions, arrays taken for pointers. -/
def erase : Ty → Ty
  | int => int
  | ptr base => ptr base.erase
  | array base _ => ptr base.erase
  | func _ => func int

/-- A normal form is its own. -/
theorem erase_erase (t : Ty) : t.erase.erase = t.erase := by
  induction t with
  | int | func ret => rfl
  | ptr base ih => exact congrArg ptr ih
  | array base len ih => exact congrArg ptr ih

theorem erase_decay (t : Ty) : t.decay.erase = t.erase := by
  cases t <;> rfl

/-- The normal form says what is pointed to, up to normal forms. -/
theorem base_erase (t : Ty) : t.erase.base? = t.base?.map erase := by
  cases t <;> rfl

theorem isPointer_erase (t : Ty) : t.erase.isPointer = t.isPointer := by
  cases t <;> rfl

theorem compatible_iff (a b : Ty) : a.compatible b ↔ a.erase = b.erase := by
  induction a generalizing b with
  | int => cases b <;> simp [compatible, erase]
  | func ret => cases b <;> simp [compatible, erase]
  | ptr base ih =>
    cases b with
    | int | func ret => simp [compatible, erase]
    | ptr other | array other len => simpa [compatible, erase] using ih other
  | array base len ih =>
    cases b with
    | int | func ret => simp [compatible, erase]
    | ptr other | array other len => simpa [compatible, erase] using ih other

/-- Pointers and arrays are compared by what they point to. -/
theorem compatible_base {x y : Ty} (ha : a.base? = some x) (hb : b.base? = some y) :
    a.compatible b = x.compatible y := by
  cases a with
  | int | func ret => cases ha
  | ptr base | array base len =>
    cases ha
    cases b with
    | int | func ret => cases hb
    | ptr other | array other len =>
      cases hb
      rfl

theorem compatible_equivalence : Equivalence fun a b : Ty => (a.compatible b : Prop) where
  refl a := (compatible_iff a a).2 rfl
  symm h := (compatible_iff _ _).2 ((compatible_iff _ _).1 h).symm
  trans h h' := (compatible_iff _ _).2 (((compatible_iff _ _).1 h).trans ((compatible_iff _ _).1 h'))

theorem compatible_decay (t : Ty) : t.compatible t.decay :=
  (compatible_iff _ _).2 (erase_decay t).symm

theorem compatible_erase (t : Ty) : t.compatible t.erase :=
  (compatible_iff _ _).2 (erase_erase t).symm

theorem isPointer_of_compatible (h : a.compatible b) : a.isPointer = b.isPointer := by
  rw [← isPointer_erase a, (compatible_iff a b).1 h, isPointer_erase]

/-- Compatible types point to compatible types, or both to nothing. -/
theorem base_of_compatible (h : a.compatible b) :
    Option.Rel (fun x y : Ty => (x.compatible y : Prop)) a.base? b.base? := by
  have hbase : a.base?.map erase = b.base?.map erase := by
    rw [← base_erase, ← base_erase, (compatible_iff a b).1 h]
  cases ha : a.base? with
  | none =>
    rw [ha] at hbase
    rw [Option.map_eq_none_iff.1 hbase.symm]
    exact .none
  | some x =>
    rw [ha] at hbase
    obtain ⟨y, hy, hxy⟩ := Option.map_eq_some_iff.1 hbase.symm
    rw [hy]
    exact .some ((compatible_iff x y).2 hxy.symm)

/-- **Compatibility is a lawful equality with a normal form.** Types are compatible exactly if they
have the same normal form, whatever their nesting and lengths, and every type is compatible with its
own. So compatibility is reflexive, symmetric and transitive; a type is compatible with what it decays
to; pointers to compatible types and arrays of them, of any lengths, are compatible, and only those;
and of compatible types both or neither are pointers, which point to compatible types. -/
theorem compatible_lawful :
    (∀ a b : Ty, a.compatible b ↔ a.erase = b.erase) ∧
    (∀ t : Ty, t.compatible t.erase ∧ t.erase.erase = t.erase) ∧
    Equivalence (fun a b : Ty => (a.compatible b : Prop)) ∧
    (∀ t : Ty, t.compatible t.decay) ∧
    (∀ a b : Ty, ((ptr a).compatible (ptr b) ↔ a.compatible b) ∧
      ∀ m n, (array a m).compatible (array b n) ↔ a.compatible b) ∧
    ∀ a b : Ty, a.compatible b →
      a.isPointer = b.isPointer ∧
      Option.Rel (fun x y : Ty => (x.compatible y : Prop)) a.base? b.base? := by
  refine ⟨compatible_iff, fun t => ⟨compatible_erase t, erase_erase t⟩, compatible_equivalence,
    compatible_decay, fun a b => ⟨?_, fun m n => ?_⟩, fun a b h => ?_⟩
  · rw [compatible_base (a := ptr a) (b := ptr b) rfl rfl]
  · rw [compatible_base (a := array a m) (b := array b n) rfl rfl]
  · exact ⟨isPointer_of_compatible h, base_of_compatible h⟩

end WordC.Ty
