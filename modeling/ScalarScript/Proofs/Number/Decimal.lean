import ScalarScript.Number.Decimal
import ScalarScript.Proofs.Number.Rounding
import Mathlib.Data.Rat.Cast.Order

/-! Decimals as fractions. The double of a decimal is its value rounded once, whatever clamp the size
of the exponent asks for, so decimals of equal value have equal doubles. The shortest decimal of a
double reads back as that double. -/
namespace ScalarScript

open Double (ofDecimal ofRatio ofRatio_congr ofRatio_of_large ofRatio_of_representable ofRatio_of_small)

namespace Decimal

/-- The number that a decimal writes. -/
def value (d : Decimal) : ℚ := d.digits * 10 ^ d.exponent

/-- The units of a decimal, as a fraction. -/
def num (d : Decimal) : ℕ := d.digits * 10 ^ d.exponent.toNat * Double.one

def den (d : Decimal) : ℕ := 10 ^ (-d.exponent).toNat

theorem den_pos (d : Decimal) : 0 < d.den := Nat.pow_pos (by decide)

theorem num_eq (d : Decimal) : (d.num : ℚ) = d.value * Double.one * d.den := by
  have h : (10 : ℚ) ^ d.exponent.toNat = 10 ^ d.exponent * 10 ^ (-d.exponent).toNat := by
    rw [← zpow_natCast, ← zpow_natCast, ← zpow_add₀ (by norm_num)]
    congr 1
    omega
  simp only [num, den, value]
  push_cast
  rw [h]
  ring

theorem num_mul_den_of_value_eq {d e : Decimal} (h : d.value = e.value) : d.num * e.den = e.num * d.den := by
  have : (d.num : ℚ) * e.den = e.num * d.den := by
    rw [num_eq, num_eq, h]
    ring
  exact_mod_cast this

/-! ### The clamps -/

-- Large exponents stay variables below, so that nothing multiplies the powers out.

theorem one_eq : ∃ n, n = 1074 ∧ Double.one = 2 ^ n := by
  unfold Double.one
  generalize 1074 = n
  exact ⟨n, rfl, rfl⟩

attribute [local irreducible] Double.one

theorem two_pow_le_ten_pow : ∃ m n, m = 1024 ∧ n = 309 ∧ 2 ^ m ≤ 10 ^ n :=
  ⟨1024, 309, rfl, rfl, by decide +kernel⟩

theorem unitsEnd_le {k : ℕ} (h : 309 ≤ k) : unitsEnd ≤ 10 ^ k * Double.one := by
  obtain ⟨m, n, hm, hn, hmn⟩ := two_pow_le_ten_pow
  obtain ⟨l, hl, hone⟩ := one_eq
  have hlimit : binary64.limit = m + l := by
    rw [hm, hl]
    rfl
  rw [unitsEnd_eq, hlimit, hone, Nat.pow_add]
  exact Nat.mul_le_mul_right _ (hmn.trans (Nat.pow_le_pow_right (by decide) (hn ▸ h)))

/-- From `10^309` on the fraction lies beyond the doubles. -/
theorem unitsEnd_mul_den_le {d : Decimal} (h0 : d.digits ≠ 0) (h : 309 ≤ d.exponent) :
    unitsEnd * d.den ≤ d.num := by
  have hden : d.den = 1 := by rw [den, Int.toNat_of_nonpos (by omega), Nat.pow_zero]
  rw [hden, Nat.mul_one]
  calc unitsEnd ≤ 10 ^ d.exponent.toNat * Double.one := unitsEnd_le (by omega)
    _ ≤ d.digits * (10 ^ d.exponent.toNat * Double.one) := Nat.le_mul_of_pos_left _ (Nat.pos_of_ne_zero h0)
    _ = d.num := (Nat.mul_assoc ..).symm

/-- Below `2^-1075` the fraction is less than half a unit. -/
theorem two_mul_num_lt_den {d : Decimal} (h : d.digits.log2 + 1 + 3 * d.exponent ≤ -1075) :
    2 * d.num < d.den := by
  obtain ⟨n, hn⟩ : ∃ n : ℕ, d.exponent = -n := ⟨(-d.exponent).toNat, by omega⟩
  obtain ⟨k, hk, hone⟩ := one_eq
  have hden : d.den = 10 ^ n := by simp [den, hn]
  have hnum : d.num = d.digits * 2 ^ k := by simp [num, hn, hone]
  rw [hden, hnum]
  calc 2 * (d.digits * 2 ^ k) < 2 * (2 ^ (d.digits.log2 + 1) * 2 ^ k) := by
        have := Nat.mul_lt_mul_of_pos_right (Nat.lt_log2_self (n := d.digits)) (Nat.two_pow_pos k)
        omega
    _ = 2 ^ (d.digits.log2 + 1 + (k + 1)) := by ring
    _ ≤ 2 ^ (3 * n) := Nat.pow_le_pow_right (by decide) (by omega)
    _ = 8 ^ n := by rw [Nat.pow_mul]
    _ ≤ 10 ^ n := Nat.pow_le_pow_left (by decide) n

/-- The clamps only save work: every decimal is rounded once. -/
theorem ofDecimal_eq (negative : Bool) (d : Decimal) : ofDecimal negative d = ofRatio binary64 negative d.num d.den := by
  unfold ofDecimal
  split
  · rw [ofRatio_of_small]
    simp [num, *, d.den_pos]
  split
  · rw [ofRatio_of_large _ d.den_pos (unitsEnd_mul_den_le ‹_› ‹_›)]
  split
  · rw [ofRatio_of_small _ (two_mul_num_lt_den ‹_›)]
  · rfl

theorem ofDecimal_congr (negative : Bool) {d e : Decimal} (h : d.value = e.value) :
    ofDecimal negative d = ofDecimal negative e := by
  rw [ofDecimal_eq, ofDecimal_eq]
  exact ofRatio_congr _ _ d.den_pos e.den_pos (num_mul_den_of_value_eq h)

/-! ### The shortest decimal -/

theorem readsBack_iff {d : Decimal} {units : ℕ} :
    d.readsBack units ↔ ∃ h, ∀ negative, ofDecimal negative d = .finite negative units h := by
  unfold readsBack
  simp only [ofDecimal_eq]
  rcases Double.ofRatio_cases binary64 d.num d.den with ⟨h, hr⟩ | hr
  · simp only [hr, beq_iff_eq, Double.finite.injEq, true_and]
    constructor
    · intro he
      exact ⟨he ▸ h, fun _ => he⟩
    · rintro ⟨_, he⟩
      exact he false
  · simp [hr]

theorem readsBack_of_neighbour? {units : ℕ} {exponent : ℤ} {d : Decimal} (h : neighbour? units exponent = some d) :
    d.readsBack units := by
  unfold neighbour? at h
  have hd := List.find?_some h
  exact hd

theorem readsBack_dropDigits {units : ℕ} {d : Decimal} (h : d.readsBack units) (drop : ℕ) :
    (dropDigits units d drop).readsBack units := by
  unfold dropDigits
  cases hn : neighbour? units (d.exponent + drop) with
  | none => rwa [Option.getD_none]
  | some e => rw [Option.getD_some]; exact readsBack_of_neighbour? hn

theorem readsBack_foldl_dropDigits {units : ℕ} {d : Decimal} (h : d.readsBack units) (drops : List ℕ) :
    (drops.foldl (dropDigits units) d).readsBack units := by
  induction drops generalizing d with
  | nil => exact h
  | cons drop rest ih => exact ih (readsBack_dropDigits h drop)

theorem readsBack_exact {units : ℕ} (h : Representable units) : (exact units).readsBack units := by
  obtain ⟨n, hn, hone⟩ := one_eq
  have hexact : exact units = ⟨units * 5 ^ n, -n⟩ := by
    unfold exact
    rw [← hn]
    congr 1
    omega
  have hnum : (exact units).num = units * (exact units).den := by
    simp only [hexact, num, den, hone, neg_neg, Int.toNat_natCast, Int.toNat_neg_natCast, Nat.pow_zero, Nat.mul_one]
    rw [Nat.mul_assoc, ← Nat.mul_pow]
  refine readsBack_iff.2 ⟨h, fun negative => ?_⟩
  rw [ofDecimal_eq, hnum, ofRatio_of_representable _ (den_pos _) h]

theorem readsBack_shortest {units : ℕ} (h : Representable units) : (shortest units).readsBack units := by
  unfold shortest
  dsimp only
  cases h16 : neighbour? units (magnitude units - 16) with
  | some d => exact readsBack_foldl_dropDigits (readsBack_of_neighbour? h16) _
  | none =>
    cases h17 : neighbour? units (magnitude units - 17) with
    | some d => exact readsBack_of_neighbour? h17
    | none => exact readsBack_exact h

theorem digits_shortest_ne_zero {units : ℕ} (h : Representable units) (h0 : units ≠ 0) :
    (shortest units).digits ≠ 0 := by
  intro hd
  obtain ⟨_, hr⟩ := readsBack_iff.1 (readsBack_shortest h)
  have := hr false
  simp only [ofDecimal, hd, Double.zero, if_true, Double.finite.injEq, true_and] at this
  exact h0 this.symm

end Decimal
end ScalarScript
