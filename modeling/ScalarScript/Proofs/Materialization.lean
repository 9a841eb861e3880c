import ScalarScript.Proofs.Fitting
import ScalarScript.Proofs.Number.Wrap
import ScalarScript.Proofs.Result

/-! Values as constants and back. Every value has a constant, and every such constant stands for a value: the
same one in the category of its origin, with an integer reduced to its width. Exactly the constants of the
kind and range of their tag, and the string constant without a value, come back as they were. -/
namespace ScalarScript

/-! ### Reduced scalars -/

namespace Scalar

/-- The same scalar, but that an integer becomes the only integer of its width congruent to it. -/
inductive Reduces : Scalar → Scalar → Prop
  | int {n m : ℤ} (h : ∀ k, Width.int32.IsResidue n k ↔ k = m) : Reduces (int n) (int m)
  | long {n m : ℤ} (h : ∀ k, Width.int64.IsResidue n k ↔ k = m) : Reduces (long n) (long m)
  | other {s : Scalar} (h : ∀ n, s ≠ int n ∧ s ≠ long n) : Reduces s s

/-- The scalar with its integer, if it has one, wrapped to the width that it is written for. -/
def wrapped : Scalar → Scalar
  | int n => int (wrap n Width.int32.bits)
  | long n => long (wrap n Width.int64.bits)
  | s => s

theorem reduces_wrapped (s : Scalar) : s.Reduces s.wrapped := by
  cases s with
  | int n => exact .int fun k => Width.isResidue_iff.trans eq_comm
  | long n => exact .long fun k => Width.isResidue_iff.trans eq_comm
  | none | bool | double | string => exact .other (by simp)

theorem fits_wrapped (s : Scalar) : s.wrapped.Fits := by
  cases s with
  | int n => exact Width.int32.fits_wrap n
  | long n => exact Width.int64.fits_wrap n
  | none | bool | double | string => trivial

theorem origin_wrapped (s : Scalar) : s.wrapped.origin = s.origin := by
  cases s <;> rfl

end Scalar

/-! ### Constants of values -/

namespace Constant

/-- Wrapping is part of making a constant, and does nothing the second time. -/
theorem ofValue_wrapped (v : Value) (category : Category) : ofValue ⟨v.scalar.wrapped, category⟩ = ofValue v := by
  obtain ⟨scalar, category'⟩ := v
  cases scalar with
  | int n =>
    have hn : wrap (wrap n 32) 32 = wrap n 32 := Width.wrap_of_fits (Width.int32.fits_wrap n)
    exact congrArg (fun m => Constant.mk .int32 (.int m)) hn
  | long n =>
    have hn : wrap (wrap n 64) 64 = wrap n 64 := Width.wrap_of_fits (Width.int64.fits_wrap n)
    exact congrArg (fun m => Constant.mk .int64 (.int m)) hn
  | none | bool | double | string => rfl

theorem toValue_ofValue_eq (v : Value) : (ofValue v).toValue = .ok (.ofScalar v.scalar.wrapped none) := by
  have hfits : (⟨v.scalar.wrapped, v.category⟩ : Value).Fits := v.scalar.fits_wrapped
  rw [← ofValue_wrapped v v.category, toValue_ofValue hfits]
  rfl

/-! ### Typed constants -/

/-- The value is of the kind that suits the tag, and in its range. -/
inductive Typed : Constant → Prop
  | int32 {n : ℤ} (h : Width.int32.fits n = true) : Typed ⟨.int32, .int n⟩
  | int64 {n : ℤ} (h : Width.int64.fits n = true) : Typed ⟨.int64, .int n⟩
  | bool (b : Bool) : Typed ⟨.bool, .bool b⟩
  | double (x : Double) : Typed ⟨.double, .double x⟩
  | string (s : String) : Typed ⟨.string, .string s⟩

theorem typed_ofValue (v : Value) : (ofValue v).Typed ∨ ofValue v = ⟨.string, .none⟩ := by
  obtain ⟨scalar, category⟩ := v
  cases scalar with
  | int n => exact .inl (.int32 (Width.int32.fits_wrap n))
  | long n => exact .inl (.int64 (Width.int64.fits_wrap n))
  | bool b => exact .inl (.bool b)
  | double x => exact .inl (.double x)
  | string s => exact .inl (.string s)
  | none => exact .inr rfl

theorem Typed.exists_eq_ofValue {c : Constant} (h : c.Typed) : ∃ v : Value, v.Canonical ∧ ofValue v = c := by
  cases h with
  | @int32 n h =>
    have hn : wrap n 32 = n := Width.wrap_of_fits h
    exact ⟨.ofScalar (.int n) none, ⟨h, rfl⟩, congrArg (fun m => Constant.mk .int32 (.int m)) hn⟩
  | @int64 n h =>
    have hn : wrap n 64 = n := Width.wrap_of_fits h
    exact ⟨.ofScalar (.long n) none, ⟨h, rfl⟩, congrArg (fun m => Constant.mk .int64 (.int m)) hn⟩
  | bool b => exact ⟨.ofBool b, ⟨trivial, rfl⟩, rfl⟩
  | double x => exact ⟨.ofDouble x, ⟨trivial, rfl⟩, rfl⟩
  | string s => exact ⟨.ofString s, ⟨trivial, rfl⟩, rfl⟩

theorem toValue_ofValue_of_canonical {v : Value} (h : v.Canonical) : (ofValue v).toValue = .ok v := by
  rw [toValue_ofValue h.fits, ← h.category]
  rfl

/-- The constants that come back as they were are those of values. -/
theorem map_ofValue_toValue_iff (c : Constant) :
    c.toValue.map ofValue = .ok c ↔ c.Typed ∨ c = ⟨.string, .none⟩ := by
  constructor
  · intro h
    cases hv : c.toValue with
    | error fault =>
      rw [hv] at h
      cases h
    | ok v =>
      rw [hv] at h
      exact Except.ok.inj h ▸ typed_ofValue v
  · rintro (h | rfl)
    · obtain ⟨v, hv, rfl⟩ := h.exists_eq_ofValue
      rw [toValue_ofValue_of_canonical hv]
      rfl
    · rfl

/-- A value has a constant that stands for it in the category of its origin, up to the reduction of integers,
and that is the constant of what it stands for. A constant is the one of its value just if it is typed or the
null string. And whatever a constant stands for, the constant of that stands for it too. -/
theorem round_trips :
    (∀ v : Value, ∃ w, (ofValue v).toValue = .ok w ∧ w.origin = v.origin ∧ w.category = v.origin.category ∧
      v.scalar.Reduces w.scalar ∧ ofValue w = ofValue v) ∧
      (∀ c : Constant, c.toValue.map ofValue = .ok c ↔ c.Typed ∨ c = ⟨.string, .none⟩) ∧
      ∀ c : Constant, (c.toValue >>= fun v => (ofValue v).toValue) = c.toValue := by
  refine ⟨fun v => ?_, map_ofValue_toValue_iff, fun c => ?_⟩
  · refine ⟨.ofScalar v.scalar.wrapped none, toValue_ofValue_eq v, v.scalar.origin_wrapped, ?_,
      v.scalar.reduces_wrapped, ofValue_wrapped v _⟩
    exact congrArg Origin.category v.scalar.origin_wrapped
  · cases hv : c.toValue with
    | error fault => rfl
    | ok v => exact toValue_ofValue_of_canonical (canonical_toValue hv)

/-- An integer one beyond its width comes back at the other end of the range, and its category is lost. -/
example :
    (ofValue ⟨.int 2147483648, .string⟩).toValue = .ok ⟨.int (-2147483648), .number⟩ := by decide

end Constant
end ScalarScript
