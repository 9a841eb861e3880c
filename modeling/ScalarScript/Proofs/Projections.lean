import ScalarScript.Proofs.Number.Wrap
import ScalarScript.Proofs.SinglePrecision
import ScalarScript.Proofs.Text.Display

/-! The projections of a value are views of one number. Below `2^53` the integers are the integer part of the double,
for texts too: what is read as an integer is read as the same number by the reader of doubles. The narrower projections
are those of the wider ones, and the truth value tells zero from the rest, but for the texts that name a truth value. -/
namespace ScalarScript

open Double (RoundsTo SameNumber ofInt one signed)

attribute [local irreducible] Double.one Text.maxDigits

/-! ### Numerals of integers -/

namespace Text

theorem natural?_eq_some {cs : List Char} {k : ℕ} (h : natural? cs = some k) :
    (∀ c ∈ cs, c.isDigit) ∧ cs ≠ [] ∧ Nat.ofDigitChars 10 cs 0 = k := by
  unfold natural? at h
  split_ifs at h with hc
  simp only [Bool.and_eq_true, Bool.not_eq_true', List.isEmpty_eq_false_iff, List.all_eq_true] at hc
  exact ⟨hc.2, hc.1, Option.some.inj h⟩

/-- An integer is read from a sign and digits. -/
theorem readInteger?_eq_some {cs : List Char} {n : ℤ} (h : readInteger? cs = some n) :
    ∃ ds negative digits, plain? cs = some ds ∧ splitSign ds = (negative, digits) ∧ (∀ c ∈ digits, c.isDigit) ∧
      digits ≠ [] ∧ n = signed negative (Nat.ofDigitChars 10 digits 0) := by
  obtain ⟨ds, hp, -⟩ := Option.bind_eq_some_iff.1 h
  rw [readInteger?_of_splitSign hp rfl] at h
  split_ifs at h
  obtain ⟨k, hk, rfl⟩ := Option.map_eq_some_iff.1 h
  obtain ⟨hd, hne, rfl⟩ := natural?_eq_some hk
  exact ⟨ds, _, _, hp, rfl, hd, hne, rfl⟩

theorem sameNumber_ofDecimal (negative : Bool) (k : ℕ) :
    (Double.ofDecimal negative ⟨k, 0⟩).SameNumber (ofInt (signed negative k)) := by
  rcases Nat.eq_zero_or_pos k with rfl | hk
  · refine .inr ⟨?_, (Double.isZero_ofInt _).2 (by simp [signed])⟩
    rw [Double.ofDecimal, if_pos rfl]
    exact (Double.isInteger_zero negative).isZero_iff.2 rfl
  · refine .inl ?_
    have hneg : decide (signed negative k < 0) = negative := by
      cases negative with
      | false => exact decide_eq_false (not_lt.2 (Int.natCast_nonneg k))
      | true => exact decide_eq_true (Int.neg_neg_of_pos (Int.natCast_pos.2 hk))
    rw [← ofDecimal_eq_ofInt, Double.natAbs_signed, hneg]

/-- What is read as an integer is also read as a double, and is the same number up to rounding and the sign of zero. -/
theorem readDouble?_of_readInteger? {cs : List Char} {n : ℤ} (h : readInteger? cs = some n) :
    ∃ x, readDouble? cs = some x ∧ x.SameNumber (ofInt n) := by
  obtain ⟨ds, negative, digits, hp, hs, hd, hne, rfl⟩ := readInteger?_eq_some h
  obtain ⟨c, rest, rfl⟩ := List.exists_cons_of_ne_nil hne
  refine ⟨_, ?_, sameNumber_ofDecimal negative _⟩
  rw [readDouble?_of_splitSign hp hs (hd c List.mem_cons_self), readDecimal?_digits hd hne, Option.map_some]

end Text

/-! ### Places and integers -/

namespace Double

variable {x y : Double} {p n : ℤ}

theorem position_eq_zero_iff : x.position = some 0 ↔ x.isZero = true := by
  cases x with
  | nan => simp [position, isZero]
  | infinity negative =>
    have hend : unitsEnd ≠ 0 := unitsEnd_pos.ne'
    cases negative <;> simp [position, isZero, signed, hend]
  | finite negative units h =>
    rw [isZero_finite]
    cases negative <;> simp [position, signed]

theorem SameNumber.position_eq (h : x.SameNumber y) : x.position = y.position := by
  rcases h with rfl | ⟨hx, hy⟩
  · rfl
  · rw [position_eq_zero_iff.2 hx, position_eq_zero_iff.2 hy]

theorem two_pow_53_mul_one_lt : 2 ^ 53 * one < unitsEnd := (representable_mul_one le_rfl).1

/-- Inside the range the integer part is that of the place. -/
theorem truncate_of_position (hp : x.position = some p) (h : |p| < unitsEnd) : x.truncate = p.tdiv one := by
  cases x with
  | nan => cases hp
  | infinity negative =>
    cases hp
    rw [Int.abs_eq_natAbs, natAbs_signed] at h
    exact absurd h (lt_irrefl _)
  | finite negative units hu =>
    cases hp
    have hdiv := signed_tdiv negative false units one
    rwa [Bool.bne_false, eq_comm] at hdiv

theorem roundedMagnitude_of_representable {units : ℕ} (h : Representable units) :
    roundedMagnitude binary64 units = units := by
  rw [representable_iff, unitsEnd_eq] at h
  rw [roundedMagnitude, Format.roundUnits_of_holds h.2, if_pos h.1]

/-- An integer whose double lies below `2^53` is that double. -/
theorem position_ofInt_of_lt (hp : (ofInt n).position = some p) (h : |p| < 2 ^ 53 * one) : p = n * one := by
  -- Rounding keeps the order and leaves `2^53` as it is, so a longer integer does not come to lie below it.
  have hn : |n| ≤ 2 ^ 53 := by
    by_contra hn
    have hle : 2 ^ 53 * one ≤ n.natAbs * one := Nat.mul_le_mul_right one (by rw [Int.abs_eq_natAbs] at hn; omega)
    have hround := roundedMagnitude_mono (f := binary64) (by decide) hle
    rw [roundedMagnitude_of_representable (representable_mul_one le_rfl)] at hround
    rw [ofInt, position_ofRatio, Option.some.injEq] at hp
    rw [← hp, Int.abs_eq_natAbs, natAbs_signed] at h
    exact absurd h (not_lt.2 (by exact_mod_cast hround))
  have hposition := (isInteger_ofInt hn).position
  exact Option.some.inj (hp.symm.trans hposition)

end Double

/-! ### Projections of a value -/

/-- The truth value that a text names in a word, blanks and capitals aside. -/
def Scalar.Names (s : Scalar) (b : Bool) : Prop :=
  ∃ text, s = .string text ∧ Text.lower (Text.trim text.toList) = (if b then "true" else "false").toList

namespace Value

variable {v : Value} {x : Double} {p : ℤ}

theorem eq_ofInt_of_fits {w : Width} {n : ℤ} (h : w.fits n = true) (hx : doubleOfInteger n = .ok x) : x = ofInt n := by
  obtain ⟨y, hy⟩ := Double.exists_ofInt? (Width.natAbs_le_of_fits h)
  obtain rfl : y = x := Except.ok.inj ((doubleOfInteger_ok hy).symm.trans hx)
  exact (Double.eq_of_ofInt? hy).symm

/-- Two ways to the integer: it is given, and the double is made of it, or the other way around. -/
theorem toInteger_cases (h : v.Fits) (hx : v.toDouble = .ok x) :
    x.SameNumber (ofInt v.scalar.toInteger) ∨ v.scalar.toInteger = x.truncate := by
  obtain ⟨scalar, category⟩ := v
  cases scalar with
  | none =>
    have hzero : Double.zero false = x := Except.ok.inj hx
    exact .inr (hzero ▸ (Double.isInteger_zero false).truncate.symm)
  | int n | long n => exact .inl (.inl (eq_ofInt_of_fits h hx))
  | bool b =>
    obtain rfl : ofInt b.toInt = x := Except.ok.inj hx
    exact .inl (.inl rfl)
  | double y =>
    obtain rfl : y = x := Except.ok.inj hx
    exact .inr rfl
  | string text =>
    obtain rfl : doubleOfText text = x := Except.ok.inj hx
    rw [Scalar.toInteger, integerOfText]
    cases hn : Text.readInteger? (Text.trim text.toList) with
    | none => exact .inr rfl
    | some n =>
      obtain ⟨y, hy, hyn⟩ := Text.readDouble?_of_readInteger? hn
      rw [doubleOfText, hy]
      exact .inl hyn

theorem toInteger_of_position (h : v.Fits) (hx : v.toDouble = .ok x) (hp : x.position = some p)
    (hlt : |p| < 2 ^ 53 * one) : v.scalar.toInteger = p.tdiv one := by
  rcases toInteger_cases h hx with hn | hn
  · rw [Double.position_ofInt_of_lt (hn.position_eq ▸ hp) hlt, Int.mul_tdiv_cancel _ Double.natCast_one_pos.ne']
  · rw [hn, Double.truncate_of_position hp (hlt.trans (by exact_mod_cast Double.two_pow_53_mul_one_lt))]

theorem toInt64_of_position (h : v.Fits) (hx : v.toDouble = .ok x) (hp : x.position = some p)
    (hlt : |p| < 2 ^ 53 * one) : v.toInt64 = p.tdiv one := by
  have hn := toInteger_of_position h hx hp hlt
  have hshort : |p.tdiv one| ≤ 2 ^ 53 := by
    rw [Int.abs_eq_natAbs] at hlt ⊢
    rw [Int.natAbs_tdiv, Int.natAbs_natCast]
    exact_mod_cast (Nat.div_lt_of_lt_mul (by rw [Nat.mul_comm]; exact_mod_cast hlt)).le
  rw [toInt64, Scalar.toInt64, hn]
  exact Width.wrap_of_fits (Width.fits_int64_of_le hshort)

theorem toBool_of_names {b : Bool} (h : v.scalar.Names b) : v.toBool = b := by
  obtain ⟨text, hs, hword⟩ := h
  rw [toBool, hs, Scalar.toBool, truthOfText, hword]
  cases b <;> rfl

/-- A truth value that no word names tells whether the double is zero. -/
theorem toBool_of_not_names (hfits : v.Fits) (hx : v.toDouble = .ok x) (h : ∀ b, ¬ v.scalar.Names b) :
    v.toBool = !x.isZero := by
  obtain ⟨scalar, category⟩ := v
  cases scalar with
  | none =>
    obtain rfl : .zero false = x := Except.ok.inj hx
    rw [(Double.isInteger_zero false).isZero_iff.2 rfl]
    rfl
  | int n | long n =>
    rw [eq_ofInt_of_fits hfits hx, Double.not_isZero_ofInt]
    rfl
  | bool b =>
    obtain rfl : ofInt b.toInt = x := Except.ok.inj hx
    rw [Double.not_isZero_ofInt]
    cases b <;> rfl
  | double y =>
    obtain rfl : y = x := Except.ok.inj hx
    rfl
  | string text =>
    obtain rfl : doubleOfText text = x := Except.ok.inj hx
    have htrue : Text.lower (Text.trim text.toList) ≠ ['t', 'r', 'u', 'e'] := fun he => h true ⟨text, rfl, he⟩
    have hfalse : Text.lower (Text.trim text.toList) ≠ ['f', 'a', 'l', 's', 'e'] := fun he => h false ⟨text, rfl, he⟩
    simp only [toBool, Scalar.toBool, truthOfText, beq_iff_eq, htrue, hfalse, if_false]

/-- The projections of a value agree: the 32-bit integer is the 64-bit one wrapped, and the single is the double
rounded; where the double is less than `2^53`, the integer is its integer part; of a double that is no number or infinite
it is zero; and the truth value is the one that a word names, or else tells whether the double is zero. -/
theorem projections_coherent (hv : v.Built) :
    ∃ x y, v.toDouble = .ok x ∧ v.toSingle = .ok y ∧ v.toInt32 = wrap v.toInt64 32 ∧ RoundsTo binary32 x y ∧
      (∀ p, x.position = some p → |p| < 2 ^ 53 * one → v.toInt64 = p.tdiv one) ∧
      (v.origin = .double → x = .nan ∨ (∃ negative, x = .infinity negative) → v.toInt64 = 0) ∧
      (∀ b, v.scalar.Names b → v.toBool = b) ∧
      ((∀ b, ¬ v.scalar.Names b) → (v.toBool = true ↔ x.position ≠ some 0)) := by
  have hfits := built_iff_fits.1 hv
  obtain ⟨x, hx⟩ := hfits.exists_toDouble
  refine ⟨x, x.toSingle, hx, toSingle_of_toDouble hx, (wrap_wrap v.scalar.toInteger (by decide)).symm,
    x.roundsTo_toSingle, fun p hp => toInt64_of_position hfits hx hp, ?_, fun b => toBool_of_names, fun h => ?_⟩
  · intro ho hx'
    obtain ⟨scalar, category⟩ := v
    cases scalar with
    | double z =>
      obtain rfl : z = x := Except.ok.inj hx
      rcases hx' with rfl | ⟨negative, rfl⟩ <;> rfl
    | none | int | long | bool | string => cases ho
  · rw [toBool_of_not_names hfits hx h, Ne, Double.position_eq_zero_iff, Bool.not_eq_true', ← Bool.not_eq_true]

/-- Blanks, a sign and a separator, by the reader of integers as by that of doubles. -/
theorem projections_coherent_of_numeral :
    (ofScalar (.string " -0_7 ") none).Built ∧ (ofScalar (.string " -0_7 ") none).toInt64 = -7 ∧
      (ofScalar (.string " -0_7 ") none).toBool = true := by
  have hv : (ofScalar (.string " -0_7 ") none).Built := built_iff_fits.2 trivial
  obtain ⟨x, -, hx, -, -, -, hinteger, -, -, htruth⟩ := projections_coherent hv
  obtain rfl : doubleOfText " -0_7 " = x := Except.ok.inj hx
  have hp : (doubleOfText " -0_7 ").position = some (-7 * (one : ℤ)) := by decide +kernel
  refine ⟨hv, ?_, ?_⟩
  · rw [hinteger _ hp (by decide +kernel), Int.mul_tdiv_cancel _ Double.natCast_one_pos.ne']
  · refine (htruth ?_).2 ?_
    · rintro b ⟨text, ht, hword⟩
      cases ht
      exact absurd hword (by cases b <;> decide +kernel)
    · rw [hp, Ne, Option.some.injEq]
      exact mul_ne_zero (by decide) Double.natCast_one_pos.ne'

end Value
end ScalarScript
