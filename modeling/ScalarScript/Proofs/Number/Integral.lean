import ScalarScript.Number.Arithmetic
import ScalarScript.Proofs.Number.Order

/-! Doubles that are integers, with a zero of either sign. Sums, differences, products and remainders of them are
the integers that they should be, as long as these have no more than 53 bits. A quotient need not be an integer,
but its integer part is that of the exact quotient: rounding never reaches the next integer. -/
namespace ScalarScript

/-! ### Quotients of integers -/

namespace Format

variable {f : Format} {a b : ℕ}

theorem two_mul_roundUnits_le (hb : 0 < b) : 2 * (f.roundUnits a b * b) ≤ 2 * a + b * 2 ^ f.spacing a b := by
  calc 2 * (f.roundUnits a b * b)
      = 2 * (roundHalfEven a (b * 2 ^ f.spacing a b) * (b * 2 ^ f.spacing a b)) := by rw [roundUnits]; ring
    _ ≤ 2 * a + b * 2 ^ f.spacing a b := (roundHalfEven_error a _ (Nat.mul_pos hb (Nat.two_pow_pos _))).1

/-- A spacing above the finest is no wider than the precision asks for. -/
theorem mul_two_pow_le (hp : 0 < f.precision) (h : f.quantum < f.spacing a b) :
    b * 2 ^ (f.precision + f.spacing a b) ≤ 2 * a := by
  have h0 : a / b ≠ 0 := by
    intro h0
    rw [spacing, h0, Nat.log2_zero] at h
    omega
  have hs : f.precision + f.spacing a b = (a / b).log2 + 1 := by
    rw [spacing] at h ⊢
    omega
  calc b * 2 ^ (f.precision + f.spacing a b) = 2 * (b * 2 ^ (a / b).log2) := by rw [hs, Nat.pow_succ]; ring
    _ ≤ 2 * (b * (a / b)) := Nat.mul_le_mul_left 2 (Nat.mul_le_mul_left b (Nat.log2_self_le h0))
    _ ≤ 2 * a := Nat.mul_le_mul_left 2 (Nat.mul_div_le a b)

end Format

namespace Double

attribute [local irreducible] one

theorem two_pow_lt_one {k : ℕ} (h : k < 1074) : 2 ^ k < one := by
  obtain ⟨e, he, hone⟩ := Decimal.one_eq
  rw [hone]
  exact Nat.pow_lt_pow_right (by decide) (he ▸ h)

theorem one_pos : 0 < one := (Nat.two_pow_pos 0).trans (two_pow_lt_one (by decide))

theorem natCast_one_pos : (0 : ℤ) < one := by exact_mod_cast one_pos

/-- The distance to the next integer is at least the reciprocal of the divisor, and the rounding error is less. -/
theorem roundUnits_lt_next {k l : ℕ} (hk : k < 2 ^ 53) (hl : 0 < l) (hl' : l < 2 ^ 53) :
    binary64.roundUnits (k * one) l < (k / l + 1) * one := by
  by_contra hn
  have hnext : k + 1 ≤ (k / l + 1) * l := Nat.lt_mul_of_div_lt (Nat.lt_succ_self _) hl
  have herror : 2 * one ≤ l * 2 ^ binary64.spacing (k * one) l := by
    have hround := Format.two_mul_roundUnits_le (f := binary64) (a := k * one) hl
    have hmul := Nat.mul_le_mul_right l (not_lt.1 hn)
    have hk' := Nat.mul_le_mul_right one hnext
    rw [Nat.mul_right_comm] at hmul
    rw [Nat.add_mul, Nat.one_mul] at hk'
    omega
  -- At the finest spacing an error is far smaller than that; at any other it is too small beside the dividend.
  rcases Nat.eq_zero_or_pos (binary64.spacing (k * one) l) with hs | hs
  · have hone := two_pow_lt_one (k := 53) (by decide)
    rw [hs] at herror
    omega
  · have hlt : k * one < 2 ^ 53 * one := Nat.mul_lt_mul_of_pos_right hk one_pos
    have hle : 2 * (2 ^ 53 * one) ≤ 2 * (k * one) := by
      calc 2 * (2 ^ 53 * one) = 2 ^ 53 * (2 * one) := by ring
        _ ≤ 2 ^ 53 * (l * 2 ^ binary64.spacing (k * one) l) := Nat.mul_le_mul_left _ herror
        _ = l * 2 ^ (binary64.precision + binary64.spacing (k * one) l) := by
          rw [show binary64.precision = 53 from rfl, Nat.pow_add]
          ring
        _ ≤ 2 * (k * one) := Format.mul_two_pow_le (by decide) hs
    omega

/-- The integer part of the rounded quotient of two integers is that of the quotient. -/
theorem roundUnits_div_one {k l : ℕ} (hk : k < 2 ^ 53) (hl : 0 < l) (hl' : l < 2 ^ 53) :
    binary64.roundUnits (k * one) l / one = k / l := by
  refine Nat.div_eq_of_lt_le ?_ (roundUnits_lt_next hk hl hl')
  have hq : k / l ≤ 2 ^ 53 := (Nat.div_le_self k l).trans hk.le
  calc k / l * one = binary64.roundUnits (k / l * one) 1 := (Format.roundUnits_of_holds (holds_mul_one hq)).symm
    _ = binary64.roundUnits (k / l * one * l) l := binary64.roundUnits_congr Nat.one_pos hl (by ring)
    _ ≤ binary64.roundUnits (k * one) l := by
      refine Format.roundUnits_mono (by decide) hl ?_
      rw [Nat.mul_right_comm]
      exact Nat.mul_le_mul_right one (Nat.div_mul_le_self k l)

/-! ### Signs -/

theorem signed_mul (a b : Bool) (k l : ℕ) : signed a k * signed b l = signed (a != b) (k * l) := by
  cases a <;> cases b <;> simp [signed]

theorem signed_tdiv (a b : Bool) (k l : ℕ) : (signed a k).tdiv (signed b l) = signed (a != b) (k / l) := by
  cases a <;> cases b <;> simp [signed]

theorem signed_tmod (a b : Bool) (k l : ℕ) : (signed a k).tmod (signed b l) = signed a (k % l) := by
  cases a <;> cases b <;> simp [signed, Int.tmod_eq_emod_of_nonneg]

/-! ### Integers -/

/-- The double has an integer for its value. -/
def IsInteger (x : Double) (n : ℤ) : Prop := ∃ negative k h, x = .finite negative (k * one) h ∧ signed negative k = n

variable {x y : Double} {m n : ℤ}

theorem IsInteger.position (h : x.IsInteger n) : x.position = some (n * one) := by
  obtain ⟨negative, k, hk, rfl, rfl⟩ := h
  rw [Double.position, signed_mul_one]

theorem IsInteger.truncate (h : x.IsInteger n) : x.truncate = n := by
  obtain ⟨negative, k, hk, rfl, rfl⟩ := h
  rw [Double.truncate, Nat.mul_div_cancel k one_pos]

theorem isZero_finite (negative : Bool) {units : ℕ} (h : Representable units) :
    (finite negative units h).isZero = true ↔ units = 0 := by
  cases units <;> simp [isZero]

theorem IsInteger.isZero_iff (h : x.IsInteger n) : x.isZero = true ↔ n = 0 := by
  obtain ⟨negative, k, hk, rfl, rfl⟩ := h
  rw [isZero_finite, Nat.mul_eq_zero, or_iff_left one_pos.ne']
  cases negative <;> simp [signed]

theorem isInteger_ofRatio (negative : Bool) {k d : ℕ} (hd : 0 < d) (hk : k ≤ 2 ^ 53) :
    (ofRatio binary64 negative (k * one * d) d).IsInteger (signed negative k) :=
  ⟨negative, k, representable_mul_one hk, ofRatio_of_representable negative hd _, rfl⟩

theorem isInteger_zero (negative : Bool) : (zero negative).IsInteger 0 := by
  refine ⟨negative, 0, representable_mul_one (Nat.zero_le _), ?_, by simp [signed]⟩
  simp only [zero, Nat.zero_mul]

/-- Integers of up to 53 bits are exact. -/
theorem isInteger_ofInt (h : |n| ≤ 2 ^ 53) : (ofInt n).IsInteger n := by
  have hr := isInteger_ofRatio (n < 0) Nat.one_pos (natAbs_le_of_abs_le h)
  rwa [Nat.mul_one, signed_natAbs] at hr

theorem isInteger_ofSigned (zeroNegative : Bool) (h : |n| ≤ 2 ^ 53) : (ofSigned zeroNegative (n * one)).IsInteger n := by
  have hone := natCast_one_pos
  rw [ofSigned]
  split_ifs with h0
  · obtain rfl : n = 0 := (mul_eq_zero.1 h0).resolve_right hone.ne'
    exact isInteger_zero zeroNegative
  · have hneg : decide (n * one < 0) = decide (n < 0) := decide_eq_decide.2 (by rw [mul_neg_iff]; omega)
    rw [hneg, Int.natAbs_mul, Int.natAbs_natCast]
    exact isInteger_ofInt h

theorem exists_ofInt?_isInteger (h : |n| ≤ 2 ^ 53) : ∃ x, ofInt? n = some x ∧ x.IsInteger n := by
  obtain ⟨negative, k, hk, hx, -⟩ := isInteger_ofInt h
  exact ⟨ofInt n, by rw [ofInt?, hx]; rfl, isInteger_ofInt h⟩

theorem IsInteger.ofInt (h : x.IsInteger n) : (ofInt n).IsInteger n := by
  obtain ⟨negative, k, hk, rfl, rfl⟩ := h
  have hr := ofRatio_of_representable (decide (signed negative k < 0)) Nat.one_pos hk
  rw [Nat.mul_one] at hr
  refine ⟨decide (signed negative k < 0), k, hk, ?_, ?_⟩
  · rw [Double.ofInt, natAbs_signed, hr]
  · simpa only [natAbs_signed] using signed_natAbs (signed negative k)

/-- Rounding never takes an integer to zero. -/
theorem isZero_ofInt (n : ℤ) : (Double.ofInt n).isZero = true ↔ n = 0 := by
  constructor
  · intro h
    by_contra h0
    have hle : 1 * one ≤ binary64.roundUnits (n.natAbs * one) 1 := by
      rw [← Format.roundUnits_of_holds (holds_mul_one (k := 1) (by decide))]
      exact Format.roundUnits_mono (by decide) Nat.one_pos (Nat.mul_le_mul_right one (Int.natAbs_pos.2 h0))
    rcases ofRatio_cases binary64 (n.natAbs * one) 1 with ⟨hr, hfinite⟩ | hinfinite
    · rw [Double.ofInt, hfinite, isZero_finite] at h
      have hpos := one_pos
      omega
    · rw [Double.ofInt, hinfinite] at h
      cases h
  · rintro rfl
    exact (isInteger_zero false).ofInt.isZero_iff.2 rfl

theorem not_isZero_ofInt (n : ℤ) : (!(Double.ofInt n).isZero) = (n != 0) := by
  rw [Bool.eq_iff_iff, bne_iff_ne, Bool.not_eq_true', ← Bool.not_eq_true, isZero_ofInt]

/-! ### The sign of zero -/

/-- One number, up to the sign of a zero. -/
def SameNumber (x y : Double) : Prop := x = y ∨ x.isZero = true ∧ y.isZero = true

theorem SameNumber.isZero_eq (h : x.SameNumber y) : x.isZero = y.isZero := by
  rcases h with rfl | ⟨hx, hy⟩
  · rfl
  · rw [hx, hy]

theorem IsInteger.sameNumber (hx : x.IsInteger n) (hy : y.IsInteger n) : x.SameNumber y := by
  by_cases h0 : n = 0
  · exact .inr ⟨hx.isZero_iff.2 h0, hy.isZero_iff.2 h0⟩
  · obtain ⟨a, k, hk, rfl, rfl⟩ := hx
    obtain ⟨b, l, hl, rfl, hs⟩ := hy
    have hab : a = b ∧ k = l := by
      cases a <;> cases b <;> simp [signed] at hs h0 ⊢ <;> omega
    obtain ⟨rfl, rfl⟩ := hab
    exact .inl rfl

theorem isZero_ofRatio_zero (f : Format) (negative : Bool) : (ofRatio f negative 0 1).isZero = true := by
  have hr : f.roundUnits 0 1 = 0 := Format.roundUnits_of_holds (Nat.dvd_zero _)
  have hlt : f.roundUnits 0 1 < 2 ^ f.limit := by
    rw [hr]
    exact Nat.two_pow_pos _
  rw [ofRatio, dif_pos hlt, isZero_finite, hr]

theorem isZero_toSingle (h : x.isZero = true) : x.toSingle.isZero = true := by
  cases x with
  | finite negative units hu =>
    obtain rfl := (isZero_finite negative hu).1 h
    exact isZero_ofRatio_zero binary32 negative
  | nan | infinity => cases h

theorem SameNumber.toSingle (h : x.SameNumber y) : x.toSingle.SameNumber y.toSingle := by
  rcases h with rfl | ⟨hx, hy⟩
  · exact .inl rfl
  · exact .inr ⟨isZero_toSingle hx, isZero_toSingle hy⟩

/-! ### Arithmetic -/

theorem IsInteger.neg (hx : x.IsInteger n) : x.neg.IsInteger (-n) := by
  obtain ⟨negative, k, hk, rfl, rfl⟩ := hx
  refine ⟨!negative, k, hk, rfl, ?_⟩
  cases negative <;> simp [signed]

theorem IsInteger.add (hx : x.IsInteger m) (hy : y.IsInteger n) (h : |m + n| ≤ 2 ^ 53) : (x.add y).IsInteger (m + n) := by
  obtain ⟨a, k, hk, rfl, rfl⟩ := hx
  obtain ⟨b, l, hl, rfl, rfl⟩ := hy
  rw [Double.add, signed_mul_one, signed_mul_one, ← Int.add_mul]
  exact isInteger_ofSigned _ h

theorem IsInteger.sub (hx : x.IsInteger m) (hy : y.IsInteger n) (h : |m - n| ≤ 2 ^ 53) : (x.sub y).IsInteger (m - n) :=
  hx.add hy.neg h

theorem IsInteger.mul (hx : x.IsInteger m) (hy : y.IsInteger n) (h : |m * n| ≤ 2 ^ 53) : (x.mul y).IsInteger (m * n) := by
  obtain ⟨a, k, hk, rfl, rfl⟩ := hx
  obtain ⟨b, l, hl, rfl, rfl⟩ := hy
  have hkl : k * l ≤ 2 ^ 53 := by
    rw [signed_mul, Int.abs_eq_natAbs, natAbs_signed] at h
    exact_mod_cast h
  have hunits : k * one * (l * one) = k * l * one * one := by ring
  rw [Double.mul, hunits, signed_mul]
  exact isInteger_ofRatio _ one_pos hkl

/-- The remainder has the sign of the dividend. -/
theorem IsInteger.rem (hx : x.IsInteger m) (hy : y.IsInteger n) (h : |m| ≤ 2 ^ 53) (hn : n ≠ 0) :
    (x.rem y).IsInteger (m.tmod n) := by
  obtain ⟨a, k, hk, rfl, rfl⟩ := hx
  obtain ⟨b, l, hl, rfl, rfl⟩ := hy
  have hkl : k % l ≤ 2 ^ 53 := by
    rw [Int.abs_eq_natAbs, natAbs_signed] at h
    exact (Nat.mod_le k l).trans (by exact_mod_cast h)
  have hr := isInteger_ofRatio a Nat.one_pos hkl
  rw [Nat.mul_one, ← Nat.mul_mod_mul_right] at hr
  have hl0 : l * one ≠ 0 := by
    rintro h0
    obtain rfl : l = 0 := (Nat.mul_eq_zero.1 h0).resolve_right one_pos.ne'
    exact hn (by cases b <;> rfl)
  rw [Double.rem, if_neg hl0, signed_tmod]
  exact hr

theorem rem_of_isInteger_zero (hx : x.IsInteger m) (hy : y.IsInteger 0) : x.rem y = .nan := by
  obtain ⟨a, k, hk, rfl, rfl⟩ := hx
  obtain ⟨b, l, hl, rfl, hs⟩ := hy
  obtain rfl : l = 0 := by simpa [natAbs_signed] using congrArg Int.natAbs hs
  rw [Double.rem, if_pos (Nat.zero_mul one)]

/-- The integer part of a quotient is rounded toward zero from the exact quotient. -/
theorem IsInteger.truncate_div (hx : x.IsInteger m) (hy : y.IsInteger n) (hm : |m| < 2 ^ 53) (hn : |n| < 2 ^ 53)
    (h0 : n ≠ 0) : (x.div y).truncate = m.tdiv n := by
  obtain ⟨a, k, hk, rfl, rfl⟩ := hx
  obtain ⟨b, l, hl, rfl, rfl⟩ := hy
  rw [Int.abs_eq_natAbs, natAbs_signed] at hm hn
  have hk' : k < 2 ^ 53 := by exact_mod_cast hm
  have hl' : l < 2 ^ 53 := by exact_mod_cast hn
  have hpos : 0 < l := Nat.pos_of_ne_zero fun h => h0 (by rw [h]; cases b <;> rfl)
  have hunits := roundUnits_div_one hk' hpos hl'
  have hcongr : binary64.roundUnits (k * one * one) (l * one) = binary64.roundUnits (k * one) l :=
    binary64.roundUnits_congr (Nat.mul_pos hpos one_pos) hpos (by ring)
  have hlt : binary64.roundUnits (k * one) l < 2 ^ binary64.limit := by
    have hnext : k / l + 1 ≤ 2 ^ 53 := (Nat.div_le_self k l).trans_lt hk'
    calc binary64.roundUnits (k * one) l < (k / l + 1) * one := roundUnits_lt_next hk' hpos hl'
      _ < unitsEnd := (representable_mul_one hnext).1
      _ = 2 ^ binary64.limit := unitsEnd_eq
  rw [Double.div, if_neg (Nat.mul_ne_zero hpos.ne' one_pos.ne'), signed_tdiv, ← hunits, ofRatio, dif_pos (hcongr ▸ hlt), Double.truncate, hcongr]

end Double
end ScalarScript
