import ScalarScript.Proofs.Number.Nearest

/-! Rounding keeps order, and is exact on integers of up to 53 bits. So the places of integers as doubles follow
the integers: a smaller integer never comes after a greater one, and up to `2^53` none share a place. -/
namespace ScalarScript

variable {a b c : ℕ}

namespace Format

variable {f : Format}

/-- Were the order turned around, the midpoint of the two results would lie on the wrong side of both quotients. -/
theorem roundUnits_mono (hp : 0 < f.precision) (hb : 0 < b) (h : a ≤ c) : f.roundUnits a b ≤ f.roundUnits c b := by
  rcases h.lt_or_eq with hlt | rfl
  · by_contra hn
    have ha := roundUnits_nearest hp (a := a) hb (holds_roundUnits hp c b)
    have hc := roundUnits_nearest hp (a := c) hb (holds_roundUnits hp a b)
    have hmul : f.roundUnits c b * b < f.roundUnits a b * b := Nat.mul_lt_mul_of_pos_right (not_le.1 hn) hb
    generalize f.roundUnits a b = r at ha hc hmul
    generalize f.roundUnits c b = s at ha hc hmul
    simp only [Int.abs_eq_natAbs] at ha hc
    omega
  · rfl

/-- Up to the first power of two beyond the precision, a multiple of a spacing is held. -/
theorem holds_mul_two_pow_of_le (hp : 0 < f.precision) {m s : ℕ} (hm : m ≤ 2 ^ f.precision) (hs : f.quantum ≤ s) :
    f.Holds (m * 2 ^ s) := by
  rcases hm.lt_or_eq with hlt | rfl
  · exact holds_mul_two_pow hlt hs
  · rw [← Nat.pow_add]
    exact holds_two_pow hp (by omega)

end Format

namespace Double

attribute [local irreducible] one

/-! ### Places of integers -/

/-- The place of the double nearest to an integer. -/
def integerPlace (n : ℤ) : ℤ := signed (n < 0) (binary64.roundUnits (n.natAbs * one) 1)

theorem eq_of_ofInt? {n : ℤ} {x : Double} (h : ofInt? n = some x) : ofInt n = x := by
  rw [ofInt?] at h
  cases hn : ofInt n with
  | infinity =>
    rw [hn] at h
    cases h
  | nan | finite =>
    rw [hn] at h
    exact Option.some.inj h

theorem position_of_ofInt? {n : ℤ} {x : Double} (h : ofInt? n = some x) : x.position = some (integerPlace n) := by
  rw [ofInt?, ofInt] at h
  rcases ofRatio_cases binary64 (n.natAbs * one) 1 with ⟨_, hr⟩ | hr <;> rw [hr] at h <;> cases h
  rfl

theorem integerPlace_mono {m n : ℤ} (h : m ≤ n) : integerPlace m ≤ integerPlace n := by
  have hround {k l : ℕ} (hkl : k ≤ l) : binary64.roundUnits (k * one) 1 ≤ binary64.roundUnits (l * one) 1 :=
    Format.roundUnits_mono (by decide) Nat.one_pos (Nat.mul_le_mul_right one hkl)
  simp only [integerPlace, signed, decide_eq_true_eq]
  split_ifs with hm hn
  · have := hround (show n.natAbs ≤ m.natAbs by omega)
    omega
  · omega
  · omega
  · have := hround (show m.natAbs ≤ n.natAbs by omega)
    omega

/-! ### Exact integers -/

theorem holds_mul_one {k : ℕ} (h : k ≤ 2 ^ 53) : binary64.Holds (k * one) := by
  obtain ⟨e, -, hone⟩ := Decimal.one_eq
  rw [hone]
  exact Format.holds_mul_two_pow_of_le (by decide) h (Nat.zero_le e)

theorem representable_mul_one {k : ℕ} (h : k ≤ 2 ^ 53) : Representable (k * one) := by
  obtain ⟨e, he, hone⟩ := Decimal.one_eq
  refine representable_iff.2 ⟨?_, holds_mul_one h⟩
  calc k * one ≤ 2 ^ 53 * 2 ^ e := hone ▸ Nat.mul_le_mul_right _ h
    _ = 2 ^ (53 + e) := (Nat.pow_add ..).symm
    _ < 2 ^ binary64.limit := Nat.pow_lt_pow_right (by decide) (by rw [he]; decide)
    _ = unitsEnd := unitsEnd_eq.symm

theorem signed_mul_one (negative : Bool) (k : ℕ) : signed negative (k * one) = signed negative k * one := by
  cases negative <;> simp [signed]

theorem signed_natAbs (n : ℤ) : signed (n < 0) n.natAbs = n := by
  rw [signed]
  split_ifs with h <;> simp only [decide_eq_true_eq] at h <;> omega

theorem signed_natAbs_mul_one (n : ℤ) : signed (n < 0) (n.natAbs * one) = n * one := by
  rw [signed_mul_one, signed_natAbs]

theorem natAbs_le_of_abs_le {n : ℤ} (h : |n| ≤ 2 ^ 53) : n.natAbs ≤ 2 ^ 53 := by
  rw [Int.abs_eq_natAbs] at h
  exact_mod_cast h

theorem integerPlace_of_le {n : ℤ} (h : |n| ≤ 2 ^ 53) : integerPlace n = n * one := by
  rw [integerPlace, Format.roundUnits_of_holds (holds_mul_one (natAbs_le_of_abs_le h)), signed_natAbs_mul_one]

end Double
end ScalarScript
