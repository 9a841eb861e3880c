import ScalarScript.Proofs.Literal
import ScalarScript.Proofs.Number.Nearest
import ScalarScript.Proofs.Number.Wrap

/-! Payloads that fit their origin: an integer lies within the width that it is written for, and the other
forms hold what they say. The constructors build nothing else. A value that fits has a number and a text,
and a constant keeps all of the value that it is made from but an overridden category. -/
namespace ScalarScript

/-! ### Integers of a width -/

theorem Double.exists_ofInt? {n : ℤ} (h : n.natAbs ≤ 2 ^ 63) : ∃ x, ofInt? n = some x :=
  exists_ofInt?_iff.2 (h.trans_lt two_pow_63_lt_integerEnd)

theorem doubleOfInteger_ok {n : ℤ} {x : Double} (h : Double.ofInt? n = some x) : doubleOfInteger n = .ok x := by
  rw [doubleOfInteger, h, Option.elim]

namespace Width

theorem natAbs_le_of_fits {w : Width} {n : ℤ} (h : w.fits n = true) : n.natAbs ≤ 2 ^ 63 := by
  simp only [fits, Bool.and_eq_true, decide_eq_true_eq] at h
  cases w <;> simp only [bits] at h <;> norm_num at h <;> omega

theorem fits_wrap (w : Width) (n : ℤ) : w.fits (wrap n w.bits) = true := by
  simp only [fits, Bool.and_eq_true, decide_eq_true_eq]
  cases w with
  | int32 => exact wrap_bounds n 31
  | int64 => exact wrap_bounds n 63

/-- The wider width has all integers of either. -/
theorem fits_int64 {w : Width} {n : ℤ} (h : w.fits n = true) : int64.fits n = true := by
  simp only [fits, Bool.and_eq_true, decide_eq_true_eq] at h ⊢
  cases w <;> simp only [bits] at h ⊢ <;> norm_num at h ⊢ <;> omega

theorem fits_int64_of_le {n : ℤ} (h : |n| ≤ 2 ^ 53) : int64.fits n = true := by
  rw [abs_le] at h
  rw [fits, Bool.and_eq_true, decide_eq_true_eq, decide_eq_true_eq]
  simp only [bits]
  omega

theorem wrap_of_fits {w : Width} {n : ℤ} (h : w.fits n = true) : wrap n w.bits = n := isResidue_iff.1 ⟨h, .rfl⟩

theorem isShort_of_fits {w : Width} {n : ℤ} (h : w.fits n = true) : Native.IsShort n := by
  have hs : 2 ^ 63 < 10 ^ 19 := by decide
  exact (natAbs_le_of_fits h).trans_lt (hs.trans_le (Nat.pow_le_pow_right (by decide) (by decide)))

end Width

/-! ### Payloads that fit -/

def Scalar.Fits : Scalar → Prop
  | int n => Width.int32.fits n = true
  | long n => Width.int64.fits n = true
  | none | bool _ | double _ | string _ => True

namespace Value

def Fits (v : Value) : Prop := v.scalar.Fits

/-- Fitting values in the category of their origin: what constants stand for and operators give. -/
structure Canonical (v : Value) : Prop where
  fits : v.Fits
  category : v.category = v.origin.category

theorem fits_empty : empty.Fits := trivial

theorem canonical_ofScalar {s : Scalar} (h : s.Fits) : (ofScalar s none).Canonical := ⟨h, rfl⟩

theorem Fits.exists_toDouble {v : Value} (h : v.Fits) : ∃ x, v.toDouble = .ok x := by
  obtain ⟨scalar, category⟩ := v
  cases scalar with
  | int n | long n =>
    obtain ⟨x, hx⟩ := Double.exists_ofInt? (Width.natAbs_le_of_fits h)
    have hd : doubleOfInteger n = .ok x := doubleOfInteger_ok hx
    exact ⟨x, hd⟩
  | none | bool | double | string => exact ⟨_, rfl⟩

theorem toSingle_of_toDouble {v : Value} {x : Double} (h : v.toDouble = .ok x) : v.toSingle = .ok x.toSingle := by
  rw [toSingle, Scalar.toSingle, ← toDouble, h, Except.map]

theorem Fits.exists_toText {v : Value} (h : v.Fits) : ∃ s, v.toText = .ok s := by
  obtain ⟨scalar, category⟩ := v
  cases scalar with
  | int n | long n =>
    rw [toText, Scalar.toText]
    exact ⟨_, Native.integerText_of_isShort (Width.isShort_of_fits h)⟩
  | none | bool | double | string => exact ⟨_, rfl⟩

/-! ### Construction -/

theorem ofFixed_of_fits {w : Width} {n : ℤ} (h : w.fits n = true) (category : Option Category) :
    ofFixed w (.int n) category = .ok (ofScalar (w.scalar n) category) := if_pos h

section Construction

variable {x : Native} {category : Option Category} {v : Value}

theorem ofFixed_eq_ok {w : Width} (h : ofFixed w x category = .ok v) : ∃ s, s.Fits ∧ v = ofScalar s category := by
  cases x with
  | int n =>
    simp only [ofFixed] at h
    split at h
    · rename_i hn
      cases h
      cases w with
      | int32 => exact ⟨.int n, hn, rfl⟩
      | int64 => exact ⟨.long n, hn, rfl⟩
    · cases hi : integerText n <;> rw [hi] at h <;> cases h
  | _ => cases h

theorem ofNumber_eq_ok (h : ofNumber x category = .ok v) : ∃ s, s.Fits ∧ v = ofScalar s category := by
  obtain ⟨y, -, h⟩ := bind_eq_ok_iff.1 h
  cases h
  exact ⟨.double y, trivial, rfl⟩

theorem ofSingle_eq_ok_iff :
    ofSingle x category = .ok v ↔ ∃ z, x.toDouble = .ok z ∧ v = ofScalar (.double z.toSingle) category := by
  rw [ofSingle, bind_eq_ok_iff]
  simp only [pure, Except.pure, Except.ok.injEq, eq_comm]

theorem ofSingle_eq_ok (h : ofSingle x category = .ok v) : ∃ s, s.Fits ∧ v = ofScalar s category := by
  obtain ⟨z, -, rfl⟩ := ofSingle_eq_ok_iff.1 h
  exact ⟨.double z.toSingle, trivial, rfl⟩

theorem ofText_eq_ok (h : ofText x category = .ok v) : ∃ s, s.Fits ∧ v = ofScalar s category := by
  cases x with
  | string s =>
    cases h
    exact ⟨.string s, trivial, rfl⟩
  | _ => cases h

/-- A value passes through, and keeps its category unless another is given. Everything else is built anew. -/
theorem ofNative_eq_ok (h : ofNative x category = .ok v) :
    (∃ w, x = .value w ∧ v = ⟨w.scalar, category.getD w.category⟩) ∨
      (∀ w, x ≠ .value w) ∧ ∃ s, s.Fits ∧ v = ofScalar s category := by
  cases x with
  | value w =>
    cases h
    exact .inl ⟨w, rfl, by cases category <;> rfl⟩
  | none =>
    cases h
    exact .inr ⟨by simp, .none, trivial, by cases category <;> rfl⟩
  | bool b =>
    cases h
    exact .inr ⟨by simp, .bool b, trivial, rfl⟩
  | int n =>
    rw [ofNative] at h
    split at h <;> exact .inr ⟨by simp, ofFixed_eq_ok h⟩
  | double y => exact .inr ⟨by simp, ofNumber_eq_ok (x := .double y) h⟩
  | string s => exact .inr ⟨by simp, ofText_eq_ok (x := .string s) h⟩
  | bytes bs => cases h
  | list items => cases h

variable (category) in
theorem exists_ofNative_int {n : ℤ} (h : Width.int64.fits n = true) :
    ∃ s, s.Fits ∧ ofNative (.int n) category = .ok (ofScalar s category) := by
  by_cases hn : Width.int32.fits n = true
  · exact ⟨.int n, hn, by rw [ofNative, if_pos hn]; exact ofFixed_of_fits hn category⟩
  · exact ⟨.long n, h, by rw [ofNative, if_neg hn]; exact ofFixed_of_fits h category⟩

end Construction
end Value

/-! ### Constants -/

namespace Constant

open Value

theorem toValue_cases (c : Constant) :
    c.toValue = .ok .empty ∨ (∃ w, c.toValue = ofFixed w c.value none) ∨ c.toValue = .ok (ofTruth c.value none) ∨
      c.toValue = ofNumber c.value none ∨ c.toValue = ofText c.value none := by
  obtain ⟨tag, x⟩ := c
  unfold toValue
  split
  · exact .inl rfl
  · exact .inr (.inl ⟨.int32, rfl⟩)
  · exact .inr (.inl ⟨.int64, rfl⟩)
  · exact .inr (.inr (.inl rfl))
  · exact .inr (.inr (.inr (.inl rfl)))
  · exact .inr (.inr (.inr (.inr rfl)))

theorem canonical_toValue {c : Constant} {v : Value} (h : c.toValue = .ok v) : v.Canonical := by
  suffices hs : ∃ s, s.Fits ∧ v = ofScalar s none by
    obtain ⟨s, hs, rfl⟩ := hs
    exact canonical_ofScalar hs
  obtain hc | ⟨w, hc⟩ | hc | hc | hc := c.toValue_cases <;> rw [hc] at h
  · cases h
    exact ⟨.none, trivial, rfl⟩
  · exact ofFixed_eq_ok h
  · cases h
    exact ⟨.bool c.value.truth, trivial, rfl⟩
  · exact ofNumber_eq_ok h
  · exact ofText_eq_ok h

/-- The constant of a value gives the value back, in the category of its origin. -/
theorem toValue_ofValue {v : Value} (h : v.Fits) : (ofValue v).toValue = .ok (v.withCategory v.origin.category) := by
  obtain ⟨scalar, category⟩ := v
  cases scalar with
  | int n =>
    have hn : wrap n 32 = n := Width.wrap_of_fits h
    rw [ofValue, Value.toInt32, Scalar.toInt32, Scalar.toInteger, hn]
    exact ofFixed_of_fits h none
  | long n =>
    have hn : wrap n 64 = n := Width.wrap_of_fits h
    rw [ofValue, Value.toInt64, Scalar.toInt64, Scalar.toInteger, hn]
    exact ofFixed_of_fits h none
  | none | bool | double | string => rfl

end Constant

end ScalarScript
