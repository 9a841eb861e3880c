import ScalarScript.Number.Double
import Mathlib.Tactic.Ring

/-! Rounding depends on the quotient alone: numerator and denominator may be scaled together. A number
of units that a format holds is rounded to itself, quotients from the end of the range of doubles on are
infinite, and those below half a unit are zero. -/
namespace ScalarScript

variable {a b c d : ℕ}

/-! ### Quotients -/

theorem div_congr (hb : 0 < b) (hd : 0 < d) (h : a * d = c * b) : a / b = c / d := by
  rw [← Nat.mul_div_mul_right a b hd, h, Nat.mul_comm b d, Nat.mul_div_mul_right c d hb]

theorem roundHalfEven_mul_right (a b : ℕ) {k : ℕ} (hk : 0 < k) :
    roundHalfEven (a * k) (b * k) = roundHalfEven a b := by
  have hlt : ∀ x y : ℕ, x * k < y * k ↔ x < y := fun x y => Nat.mul_lt_mul_right hk
  simp only [roundHalfEven, Nat.mul_div_mul_right a b hk, Nat.mul_mod_mul_right]
  simp only [← Nat.mul_assoc, hlt]

theorem roundHalfEven_congr (hb : 0 < b) (hd : 0 < d) (h : a * d = c * b) :
    roundHalfEven a b = roundHalfEven c d := by
  rw [← roundHalfEven_mul_right a b hd, h, Nat.mul_comm b d, roundHalfEven_mul_right c d hb]

theorem roundHalfEven_eq_zero (h : 2 * a < b) : roundHalfEven a b = 0 := by
  have hq : a / b = 0 := Nat.div_eq_of_lt (by omega)
  have hr : a % b = a := Nat.mod_eq_of_lt (by omega)
  simp [roundHalfEven, hq, hr, h]

/-! ### Formats -/

theorem unitsEnd_eq : unitsEnd = 2 ^ binary64.limit := by
  have h : binary64.limit = 2098 := rfl
  unfold unitsEnd
  generalize 2098 = n at h ⊢
  rw [h]

namespace Format

theorem spacing_congr (f : Format) (hb : 0 < b) (hd : 0 < d) (h : a * d = c * b) :
    f.spacing a b = f.spacing c d := by
  rw [spacing, spacing, div_congr hb hd h]

theorem roundUnits_congr (f : Format) (hb : 0 < b) (hd : 0 < d) (h : a * d = c * b) :
    f.roundUnits a b = f.roundUnits c d := by
  have hp : 0 < 2 ^ f.spacing c d := Nat.two_pow_pos _
  simp only [roundUnits, f.spacing_congr hb hd h]
  rw [roundHalfEven_congr (c := c) (d := d * 2 ^ f.spacing c d) (Nat.mul_pos hb hp) (Nat.mul_pos hd hp)]
  rw [← Nat.mul_assoc, h]
  ring

/-- The numbers of units that the format writes exactly, its range left aside. -/
def Holds (f : Format) (units : ℕ) : Prop := 2 ^ f.spacing units 1 ∣ units

/-- Rounding leaves what the format holds alone. -/
theorem roundUnits_of_holds {f : Format} {units : ℕ} (h : f.Holds units) : f.roundUnits units 1 = units := by
  rw [Holds] at h
  rw [roundUnits, Nat.one_mul]
  have hp : 0 < 2 ^ f.spacing units 1 := Nat.two_pow_pos _
  generalize 2 ^ f.spacing units 1 = step at h hp
  obtain ⟨k, rfl⟩ := h
  rw [Nat.mul_comm step k, roundHalfEven_mul_left k step hp]

/-- The result is at least the largest power of two in the quotient. -/
theorem two_pow_log2_le_roundUnits (f : Format) (hp : 0 < f.precision) (hq : f.quantum ≤ (a / b).log2)
    (h : a / b ≠ 0) : 2 ^ (a / b).log2 ≤ f.roundUnits a b := by
  set s := f.spacing a b
  have hs : s ≤ (a / b).log2 := Nat.max_le.2 ⟨hq, by omega⟩
  have hpow : 2 ^ (a / b).log2 = 2 ^ ((a / b).log2 - s) * 2 ^ s := by
    rw [← Nat.pow_add, Nat.sub_add_cancel hs]
  have hdiv : 2 ^ ((a / b).log2 - s) ≤ a / (b * 2 ^ s) := by
    rw [← Nat.div_div_eq_div_mul, Nat.le_div_iff_mul_le (Nat.two_pow_pos s), ← hpow]
    exact Nat.log2_self_le h
  calc 2 ^ (a / b).log2 = 2 ^ ((a / b).log2 - s) * 2 ^ s := hpow
    _ ≤ roundHalfEven a (b * 2 ^ s) * 2 ^ s :=
      Nat.mul_le_mul_right _ (hdiv.trans (div_le_roundHalfEven a (b * 2 ^ s)))

/-- A power of two that the quotient reaches is reached by the result. -/
theorem two_pow_le_roundUnits (f : Format) (hp : 0 < f.precision) {k : ℕ} (hk : f.quantum ≤ k) (h : 2 ^ k ≤ a / b) :
    2 ^ k ≤ f.roundUnits a b := by
  have h0 : a / b ≠ 0 := (Nat.lt_of_lt_of_le (Nat.two_pow_pos k) h).ne'
  have hlog : k ≤ (a / b).log2 := (Nat.le_log2 h0).2 h
  calc 2 ^ k ≤ 2 ^ (a / b).log2 := Nat.pow_le_pow_right (by decide) hlog
    _ ≤ f.roundUnits a b := f.two_pow_log2_le_roundUnits hp (hk.trans hlog) h0

/-- The result is at most the power of two after the quotient, or the one at the finest spacing. -/
theorem roundUnits_le (f : Format) : f.roundUnits a b ≤ 2 ^ (f.precision + f.spacing a b) := by
  rw [Nat.pow_add]
  exact Nat.mul_le_mul_right _ (f.significand_le a b)

end Format

theorem representable_iff {units : ℕ} : Representable units ↔ units < unitsEnd ∧ binary64.Holds units := by
  have hs : binary64.spacing units 1 = units.log2 - 52 := by
    simp only [Format.spacing, binary64, Nat.div_one]
    omega
  rw [Format.Holds, hs]
  rfl

namespace Double

theorem ofRatio_eq_of_roundUnits {f : Format} {negative : Bool} (h : f.roundUnits a b = f.roundUnits c d) :
    ofRatio f negative a b = ofRatio f negative c d := by
  unfold ofRatio
  simp only [h]

/-- Whether the result is finite does not depend on the sign. -/
theorem ofRatio_cases (f : Format) (a b : ℕ) :
    (∃ h, ∀ negative, ofRatio f negative a b = .finite negative (f.roundUnits a b) h) ∨
      ∀ negative, ofRatio f negative a b = .infinity negative := by
  by_cases h : f.roundUnits a b < 2 ^ f.limit
  · exact .inl ⟨f.representable_roundUnits a b h, fun _ => dif_pos h⟩
  · exact .inr fun _ => dif_neg h

theorem ofRatio_congr (f : Format) (negative : Bool) (hb : 0 < b) (hd : 0 < d) (h : a * d = c * b) :
    ofRatio f negative a b = ofRatio f negative c d :=
  ofRatio_eq_of_roundUnits (f.roundUnits_congr hb hd h)

/-- What a double holds is not changed by rounding. -/
theorem ofRatio_of_representable {units den : ℕ} (negative : Bool) (hd : 0 < den) (h : Representable units) :
    ofRatio binary64 negative (units * den) den = .finite negative units h := by
  have hr : binary64.roundUnits (units * den) den = units := by
    rw [binary64.roundUnits_congr (c := units) (d := 1) hd (by decide) (by ring),
      Format.roundUnits_of_holds (representable_iff.1 h).2]
  have hlt : units < 2 ^ binary64.limit := unitsEnd_eq ▸ h.1
  simp only [ofRatio, hr, hlt, dif_pos]

theorem ofRatio_of_large (negative : Bool) (hb : 0 < b) (h : unitsEnd * b ≤ a) :
    ofRatio binary64 negative a b = .infinity negative := by
  have hq : 2 ^ binary64.limit ≤ a / b := unitsEnd_eq ▸ (Nat.le_div_iff_mul_le hb).2 h
  have hr := binary64.two_pow_le_roundUnits (by decide) (Nat.zero_le _) hq
  rw [ofRatio, dif_neg (Nat.not_lt.2 hr)]

theorem ofRatio_of_small (negative : Bool) (h : 2 * a < b) : ofRatio binary64 negative a b = zero negative := by
  have hs : binary64.spacing a b = 0 := by
    simp [Format.spacing, binary64, Nat.div_eq_of_lt (show a < b by omega)]
  have hr : binary64.roundUnits a b = 0 := by
    simp [Format.roundUnits, hs, roundHalfEven_eq_zero h]
  simp only [ofRatio, hr, Nat.two_pow_pos, dif_pos]
  rfl

end Double
end ScalarScript
