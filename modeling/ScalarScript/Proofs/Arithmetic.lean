import ScalarScript.Proofs.Comparison
import ScalarScript.Proofs.Text.Display

/-! Arithmetic of integers by way of doubles. Values that hold integers are added, subtracted, multiplied, divided
with remainder and compared as integers are, as long as the results have no more than 53 bits, and the results are
displayed in their digits. Sums and differences of 32-bit integers always stay within that; their products may not. -/
namespace ScalarScript

open Operator (comparisons)

/-! ### Values that hold integers -/

namespace Value

/-- A number whose double is the integer. -/
def HoldsInteger (v : Value) (n : ℤ) : Prop := v.category = .number ∧ ∃ x, v.toDouble = .ok x ∧ x.IsInteger n

variable {v : Value} {x : Double} {n : ℤ}

theorem HoldsInteger.hasPlace (h : v.HoldsInteger n) : v.HasPlace (n * Double.one) := by
  obtain ⟨hc, x, hx, hn⟩ := h
  exact ⟨hc, x, hx, hn.position⟩

theorem holdsInteger_scalar (w : Width) (h : |n| ≤ 2 ^ 53) : (ofScalar (w.scalar n) none).HoldsInteger n := by
  obtain ⟨x, hx, hn⟩ := Double.exists_ofInt?_isInteger h
  have hd : doubleOfInteger n = .ok x := doubleOfInteger_ok hx
  cases w with
  | int32 => exact ⟨rfl, x, hd, hn⟩
  | int64 => exact ⟨rfl, x, hd, hn⟩

theorem toInt64_ofDouble (h : x.truncate = n) (hn : |n| ≤ 2 ^ 53) : (ofDouble x).toInt64 = n :=
  (congrArg (wrap · 64) h).trans (Width.wrap_of_fits (Width.fits_int64_of_le hn))

/-- Every integer that doubles are exact on is displayed without a point or an exponent. -/
theorem toText_ofDouble (h : x.IsInteger n) (hn : |n| ≤ 2 ^ 53) : (ofDouble x).toText = .ok (toString n) := by
  have hlt : |n| < 10 ^ 16 := by omega
  exact congrArg Except.ok ((Text.display_of_isInteger h hlt).trans (Text.ofList_integerChars n))

end Value

namespace Operator

/-- The outcome is a value that projects to the integer, and to its digits. -/
def Gives (op : Operator) (a b : Value) (n : ℤ) : Prop :=
  ∃ v, op.apply a b = .ok (.value v) ∧ v.toInt64 = n ∧ v.toText = .ok (toString n)

/-! ### Operations on integers -/

section Integers

variable {op : Operator} {a b : Value} {m n : ℤ} (ha : a.HoldsInteger m) (hb : b.HoldsInteger n)

include ha hb

theorem gives_of_arithmetic {f : Double → Double → Double} {k : ℤ}
    (happly : common? a b = some .number → op.apply a b = arithmetic f a b)
    (hf : ∀ x y : Double, x.IsInteger m → y.IsInteger n → (f x y).IsInteger k) (hk : |k| ≤ 2 ^ 53) : op.Gives a b k := by
  obtain ⟨ha, x, hx, hm⟩ := ha
  obtain ⟨hb, y, hy, hn⟩ := hb
  have hxy := hf x y hm hn
  refine ⟨_, ?_, Value.toInt64_ofDouble hxy.truncate hk, Value.toText_ofDouble hxy hk⟩
  rw [happly (common?_of_category ha hb), arithmetic_ok hx hy]

theorem gives_add (h : |m + n| ≤ 2 ^ 53) : add.Gives a b (m + n) :=
  gives_of_arithmetic ha hb (fun hc => by simp only [apply, hc]) (fun _ _ hx hy => hx.add hy h) h

theorem gives_subtract (h : |m - n| ≤ 2 ^ 53) : subtract.Gives a b (m - n) :=
  gives_of_arithmetic ha hb (fun hc => by simp only [apply, hc]) (fun _ _ hx hy => hx.sub hy h) h

theorem gives_multiply (h : |m * n| ≤ 2 ^ 53) : multiply.Gives a b (m * n) :=
  gives_of_arithmetic ha hb (fun hc => by simp only [apply, hc]) (fun _ _ hx hy => hx.mul hy h) h

theorem gives_remainder (h : |m| ≤ 2 ^ 53) (h0 : n ≠ 0) : remainder.Gives a b (m.tmod n) := by
  have hk : |m.tmod n| ≤ 2 ^ 53 := by
    rw [Int.abs_eq_natAbs] at h ⊢
    rw [Int.natAbs_tmod]
    have := Nat.mod_le m.natAbs n.natAbs
    omega
  exact gives_of_arithmetic ha hb (fun hc => by simp only [apply, hc]) (fun _ _ hx hy => hx.rem hy h h0) hk

/-- The quotient is a number with a fraction, of which only the integer part is known. -/
theorem apply_divide (hm : |m| < 2 ^ 53) (hn : |n| < 2 ^ 53) (h0 : n ≠ 0) :
    ∃ q, divide.apply a b = .ok (.value q) ∧ q.toInt64 = m.tdiv n := by
  have hk : |m.tdiv n| ≤ 2 ^ 53 := by
    rw [Int.abs_eq_natAbs] at hm ⊢
    have := Int.natAbs_tdiv_le_natAbs m n
    omega
  obtain ⟨ha, x, hx, hxm⟩ := ha
  obtain ⟨hb, y, hy, hyn⟩ := hb
  have hzero : ¬ y.isZero = true := mt hyn.isZero_iff.1 h0
  refine ⟨_, ?_, Value.toInt64_ofDouble (hxm.truncate_div hyn hm hn h0) hk⟩
  simp only [apply, common?_of_category ha hb]
  rw [division_ok hx hy, if_neg hzero]

theorem apply_divide_zero (h0 : n = 0) : divide.apply a b = .error .divisionByZero := by
  obtain ⟨ha, x, hx, -⟩ := ha
  obtain ⟨hb, y, hy, hyn⟩ := hb
  simp only [apply, common?_of_category ha hb]
  rw [division_ok hx hy, if_pos (hyn.isZero_iff.2 h0)]

theorem apply_remainder_zero (h0 : n = 0) : remainder.apply a b = .ok (.value (.ofDouble .nan)) := by
  obtain ⟨ha, x, hx, hxm⟩ := ha
  obtain ⟨hb, y, hy, hyn⟩ := hb
  subst h0
  simp only [apply, common?_of_category ha hb]
  rw [arithmetic_ok hx hy, Double.rem_of_isInteger_zero hxm hyn]

theorem apply_comparison (hop : op ∈ comparisons) : op.apply a b = .ok (.truth (op.relation m n)) := by
  rw [apply_of_hasPlace hop ha.hasPlace hb.hasPlace, relation_mul_one]

end Integers

/-! ### Integers of 32 bits -/

/-- On 32-bit integers the arithmetic of doubles is that of integers. -/
theorem int32_arithmetic_exact {x y : ℤ} (hx : -2 ^ 31 ≤ x ∧ x < 2 ^ 31) (hy : -2 ^ 31 ≤ y ∧ y < 2 ^ 31) :
    ∃ a b, Value.ofInt32 (.int x) none = .ok a ∧ Value.ofInt32 (.int y) none = .ok b ∧
      add.Gives a b (x + y) ∧ subtract.Gives a b (x - y) ∧
      (|x * y| ≤ 2 ^ 53 → multiply.Gives a b (x * y)) ∧
      (y ≠ 0 → (∃ q, divide.apply a b = .ok (.value q) ∧ q.toInt64 = x.tdiv y) ∧
        remainder.Gives a b (x - y * x.tdiv y)) ∧
      (y = 0 → divide.apply a b = .error .divisionByZero ∧ remainder.apply a b = .ok (.value (.ofDouble .nan))) ∧
      ∀ op ∈ comparisons, op.apply a b = .ok (.truth (op.relation x y)) := by
  have hfits {n : ℤ} (hn : -2 ^ 31 ≤ n ∧ n < 2 ^ 31) : Width.int32.fits n = true := by
    rw [Width.fits, Bool.and_eq_true, decide_eq_true_eq, decide_eq_true_eq]
    exact hn
  have hshort {n : ℤ} (hn : -2 ^ 31 ≤ n ∧ n < 2 ^ 31) : |n| ≤ 2 ^ 31 := abs_le.2 ⟨hn.1, hn.2.le⟩
  have hx' := hshort hx
  have hy' := hshort hy
  have ha : (Value.ofScalar (.int x) none).HoldsInteger x := Value.holdsInteger_scalar .int32 (by omega)
  have hb : (Value.ofScalar (.int y) none).HoldsInteger y := Value.holdsInteger_scalar .int32 (by omega)
  refine ⟨_, _, Value.ofFixed_of_fits (hfits hx) none, Value.ofFixed_of_fits (hfits hy) none, ?_⟩
  refine ⟨gives_add ha hb ?_, gives_subtract ha hb ?_, gives_multiply ha hb, fun h0 => ⟨?_, ?_⟩,
    fun h0 => ⟨apply_divide_zero ha hb h0, apply_remainder_zero ha hb h0⟩, fun op hop => apply_comparison ha hb hop⟩
  · have := abs_add_le x y
    omega
  · have := abs_sub x y
    omega
  · exact apply_divide ha hb (by omega) (by omega) h0
  · rw [← Int.tmod_def]
    exact gives_remainder ha hb (by omega) h0

/-- The quotient that does not fit the width of the dividend. -/
theorem int32_arithmetic_exact_of_least :
    (-2 ^ 31 ≤ (-2 ^ 31 : ℤ) ∧ (-2 ^ 31 : ℤ) < 2 ^ 31) ∧ (-2 ^ 31 ≤ (-1 : ℤ) ∧ (-1 : ℤ) < 2 ^ 31) ∧
      ∃ a b, Value.ofInt32 (.int (-2 ^ 31)) none = .ok a ∧ Value.ofInt32 (.int (-1)) none = .ok b ∧
        multiply.Gives a b (2 ^ 31) ∧ (∃ q, divide.apply a b = .ok (.value q) ∧ q.toInt64 = 2 ^ 31) ∧
        remainder.Gives a b 0 := by
  have hx : -2 ^ 31 ≤ (-2 ^ 31 : ℤ) ∧ (-2 ^ 31 : ℤ) < 2 ^ 31 := by decide
  have hy : -2 ^ 31 ≤ (-1 : ℤ) ∧ (-1 : ℤ) < 2 ^ 31 := by decide
  obtain ⟨a, b, ha, hb, -, -, hmul, hdiv, -⟩ := int32_arithmetic_exact hx hy
  obtain ⟨hquotient, hremainder⟩ := hdiv (by decide)
  exact ⟨hx, hy, a, b, ha, hb, hmul (by decide), hquotient, hremainder⟩

end Operator
end ScalarScript
