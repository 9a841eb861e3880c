import Mathlib.Algebra.Group.Nat.Even
import ScalarScript.Proofs.Number.Integral

/-! Formats and rounding to them, as a standard puts it. A format has the numbers that a significand and an
exponent write in it. Rounding keeps the sign and finds the nearest of its numbers, of two such the one with an even
significand; from halfway between the largest of them and the power of two after it on, it is infinite. So rounding
keeps the order of numbers, and a second time it changes nothing. -/
namespace ScalarScript

variable {a b : ℕ}

/-! ### Ties -/

/-- Another multiple of the denominator is as near to the numerator at a midpoint only, where the even one is taken. -/
theorem even_roundHalfEven_of_tie (hb : 0 < b) {k : ℕ} (hk : k ≠ roundHalfEven a b)
    (h : |(k * b : ℤ) - a| = |(roundHalfEven a b * b : ℤ) - a|) : Even (roundHalfEven a b) := by
  obtain ⟨hlow, hhigh⟩ := roundHalfEven_error a b hb
  have hapart : k * b + b ≤ roundHalfEven a b * b ∨ roundHalfEven a b * b + b ≤ k * b := by
    rcases Nat.lt_or_gt_of_ne hk with hlt | hlt
    · exact .inl (Nat.succ_mul k b ▸ Nat.mul_le_mul_right b hlt)
    · exact .inr (Nat.succ_mul _ b ▸ Nat.mul_le_mul_right b hlt)
  have hmid : 2 * (roundHalfEven a b * b) = 2 * a + b ∨ 2 * (roundHalfEven a b * b) + b = 2 * a := by
    simp only [Int.abs_eq_natAbs] at h
    omega
  have hd : a / b * b + a % b = a := by rw [Nat.mul_comm]; exact Nat.div_add_mod a b
  have hr := Nat.mod_lt a hb
  have hnext : (a / b + 1) * b = a / b * b + b := Nat.succ_mul ..
  rw [Nat.even_iff]
  simp only [roundHalfEven] at hmid ⊢
  split_ifs at hmid ⊢ <;> omega

/-! ### Numbers of a format -/

namespace Format

/-- The number that a significand and an exponent write in the format. Above the least exponent the significand has
all its bits. -/
structure Writes (f : Format) (significand exponent units : ℕ) : Prop where
  units_eq : units = significand * 2 ^ exponent
  significand_lt : significand < 2 ^ f.precision
  quantum_le : f.quantum ≤ exponent
  exponent_le : exponent + f.precision ≤ f.limit
  normal : exponent = f.quantum ∨ 2 ^ (f.precision - 1) ≤ significand

def Contains (f : Format) (units : ℕ) : Prop := ∃ significand exponent, f.Writes significand exponent units

def HasEvenSignificand (f : Format) (units : ℕ) : Prop :=
  ∃ significand exponent, f.Writes significand exponent units ∧ Even significand

/-- Halfway from the largest number of the format to the power of two after it. -/
def roundingEnd (f : Format) : ℕ := 2 ^ f.limit - 2 ^ (f.limit - f.precision - 1)

variable {f : Format}

theorem Contains.holds (h : f.Contains a) : f.Holds a := by
  obtain ⟨significand, exponent, hw⟩ := h
  rw [hw.units_eq]
  exact holds_mul_two_pow hw.significand_lt hw.quantum_le

theorem spacing_cases (f : Format) (a : ℕ) :
    f.spacing a 1 = f.quantum ∨ f.quantum < f.spacing a 1 ∧ f.precision + f.spacing a 1 = a.log2 + 1 := by
  rw [spacing, Nat.div_one]
  omega

theorem roundUnits_one (f : Format) (a : ℕ) :
    f.roundUnits a 1 = roundHalfEven a (2 ^ f.spacing a 1) * 2 ^ f.spacing a 1 := by
  rw [roundUnits, Nat.one_mul]

section Rounding

variable (hp : 1 < f.precision) (hl : f.quantum + f.precision < f.limit)

include hp

theorem significand_ge (hs : f.quantum < f.spacing a 1) :
    2 ^ (f.precision - 1) ≤ roundHalfEven a (2 ^ f.spacing a 1) := by
  obtain h | ⟨-, hlog⟩ := f.spacing_cases a
  · exact absurd h hs.ne'
  have h0 : a ≠ 0 := by
    rintro rfl
    rw [Nat.log2_zero] at hlog
    omega
  refine le_trans ?_ (div_le_roundHalfEven a _)
  rw [Nat.le_div_iff_mul_le (Nat.two_pow_pos _), ← Nat.pow_add, show f.precision - 1 + f.spacing a 1 = a.log2 by omega]
  exact Nat.log2_self_le h0

include hl

theorem spacing_le (h : f.roundUnits a 1 < 2 ^ f.limit) : f.spacing a 1 + f.precision ≤ f.limit := by
  obtain hs | ⟨hs, hlog⟩ := f.spacing_cases a
  · omega
  have hbig : 2 ^ (f.precision - 1 + f.spacing a 1) ≤ f.roundUnits a 1 := by
    rw [Nat.pow_add, roundUnits_one]
    exact Nat.mul_le_mul_right _ (significand_ge hp hs)
  have := (Nat.pow_lt_pow_iff_right (by decide)).1 (hbig.trans_lt h)
  omega

/-- What rounding finds is written with the spacing for its exponent, or else it is the power of two that follows. -/
theorem writes_roundUnits (h : f.roundUnits a 1 < 2 ^ f.limit) :
    f.Writes (roundHalfEven a (2 ^ f.spacing a 1)) (f.spacing a 1) (f.roundUnits a 1) ∨
      f.Writes (2 ^ (f.precision - 1)) (f.spacing a 1 + 1) (f.roundUnits a 1) := by
  have hle := f.significand_le a 1
  rw [Nat.one_mul] at hle
  rcases hle.lt_or_eq with hlt | heq
  · refine .inl ⟨f.roundUnits_one a, hlt, f.quantum_le_spacing a 1, spacing_le hp hl h, ?_⟩
    rcases (f.quantum_le_spacing a 1).eq_or_lt with hs | hs
    · exact .inl hs.symm
    · exact .inr (significand_ge hp hs)
  · have hpow : f.roundUnits a 1 = 2 ^ (f.precision + f.spacing a 1) := by rw [roundUnits_one, heq, Nat.pow_add]
    rw [hpow] at h ⊢
    have hlimit := (Nat.pow_lt_pow_iff_right (by decide)).1 h
    refine .inr ⟨?_, Nat.pow_lt_pow_right (by decide) (by omega), ?_, by omega, .inr le_rfl⟩
    · rw [← Nat.pow_add]
      congr 1
      omega
    · exact (f.quantum_le_spacing a 1).trans (Nat.le_succ _)

theorem contains_roundUnits (h : f.roundUnits a 1 < 2 ^ f.limit) : f.Contains (f.roundUnits a 1) := by
  rcases writes_roundUnits hp hl h with hw | hw
  · exact ⟨_, _, hw⟩
  · exact ⟨_, _, hw⟩

/-- A number that the format holds is as near as the rounded one at a tie only: below the spacing of its binade
none is. -/
theorem hasEvenSignificand_of_tie (h : f.roundUnits a 1 < 2 ^ f.limit) {k : ℕ} (hk : f.Holds k)
    (hne : k ≠ f.roundUnits a 1) (htie : |(k : ℤ) - a| = |(f.roundUnits a 1 : ℤ) - a|) :
    f.HasEvenSignificand (f.roundUnits a 1) := by
  have hp' : 0 < f.precision := by omega
  have heven : Even (roundHalfEven a (2 ^ f.spacing a 1)) := by
    by_cases hs : 2 ^ f.spacing a 1 ∣ k
    · obtain ⟨m, rfl⟩ := hs
      rw [Nat.mul_comm, roundUnits_one] at hne htie
      refine even_roundHalfEven_of_tie (Nat.two_pow_pos _) (k := m) ?_ (by exact_mod_cast htie)
      rintro rfl
      exact hne rfl
    · obtain ⟨j, hj, hlt, hle⟩ := exists_two_pow_between hp' hk hs
      have hpow : f.Holds (2 ^ j) := holds_two_pow hp' ((f.quantum_le_spacing a 1).trans hj)
      have hnear := roundUnits_nearest (a := a) hp' Nat.one_pos hpow
      rw [Nat.div_one] at hle
      simp only [Nat.cast_one, mul_one, Int.abs_eq_natAbs] at hnear htie
      generalize 2 ^ j = t at hlt hle hnear
      omega
  rcases writes_roundUnits hp hl h with hw | hw
  · exact ⟨_, _, hw, heven⟩
  · exact ⟨_, _, hw, even_two.pow_of_ne_zero (by omega)⟩

theorem roundUnits_lt_iff : f.roundUnits a 1 < 2 ^ f.limit ↔ a < f.roundingEnd := by
  have hstep : 2 ^ (f.limit - f.precision) = 2 * 2 ^ (f.limit - f.precision - 1) := by
    rw [← Nat.pow_succ']
    congr 1
    omega
  rw [roundUnits_lt_limit_iff (by omega) hl Nat.one_pos, hstep, roundingEnd]
  omega

/-- From the end of the range of doubles on, the end of the format's own range has long been passed. -/
theorem not_roundUnits_unitsEnd_lt : ¬ f.roundUnits unitsEnd 1 < 2 ^ f.limit := by
  have hlimit : 2 ^ f.limit ≤ unitsEnd / 1 := by
    rw [Nat.div_one]
    exact two_pow_le_unitsEnd f.limit_le
  exact not_lt.2 (f.two_pow_le_roundUnits (by omega) (by omega) hlimit)

end Rounding
end Format

/-! ### Doubles of a format -/

namespace Double

variable {f : Format} {x y : Double}

/-- NaN, the infinities, and the finite numbers of the format with either sign. -/
def InFormat (f : Format) : Double → Prop
  | finite _ units _ => f.Contains units
  | _ => True

/-- A double of the format such that none is nearer to the first, and one with an even significand where another is
as near. -/
structure IsNearest (f : Format) (x y : Double) : Prop where
  inFormat : y.InFormat f
  nearest {z : Double} {p q r : ℤ} : z.InFormat f → x.position = some p → y.position = some q → z.position = some r →
    |q - p| ≤ |r - p|
  even {z : Double} {p q r : ℤ} : z.InFormat f → x.position = some p → y.position = some q → z.position = some r →
    r ≠ q → |r - p| = |q - p| → f.HasEvenSignificand q.natAbs

/-- Rounding of a double to a format. The sign is kept, and so are NaN and the infinities. -/
inductive RoundsTo (f : Format) : Double → Double → Prop
  | nan : RoundsTo f nan nan
  | infinity (negative : Bool) : RoundsTo f (infinity negative) (infinity negative)
  | beyond {negative : Bool} {units : ℕ} {h : Representable units} (hbeyond : f.roundingEnd ≤ units) :
    RoundsTo f (finite negative units h) (infinity negative)
  | nearest {negative : Bool} {units rounded : ℕ} {h : Representable units} {h' : Representable rounded}
    (hwithin : units < f.roundingEnd) (hnearest : IsNearest f (finite negative units h) (finite negative rounded h')) :
    RoundsTo f (finite negative units h) (finite negative rounded h')

theorem holds_of_inFormat (hp : 0 < f.precision) (hl : f.quantum ≤ binary64.limit) (h : x.InFormat f) {p : ℤ}
    (hx : x.position = some p) : f.Holds p.natAbs := by
  cases x with
  | nan => cases hx
  | infinity negative =>
    cases hx
    rw [natAbs_signed, unitsEnd_eq]
    exact Format.holds_two_pow hp hl
  | finite negative units hu =>
    cases hx
    rw [natAbs_signed]
    exact Format.Contains.holds h

theorem signed_false (units : ℕ) : signed false units = units := rfl

theorem signed_true (units : ℕ) : signed true units = -units := rfl

/-- Distances to a signed number are at least those of the magnitudes, and no more under the same sign. -/
theorem abs_natAbs_sub_le (negative : Bool) (units : ℕ) (p : ℤ) :
    |(p.natAbs : ℤ) - units| ≤ |p - signed negative units| := by
  cases negative <;> simp only [signed_false, signed_true, Int.abs_eq_natAbs] <;> omega

theorem abs_signed_sub_signed (negative : Bool) (k l : ℕ) :
    |signed negative k - signed negative l| = |(k : ℤ) - l| := by
  cases negative with
  | false => rfl
  | true =>
    simp only [signed_true, Int.abs_eq_natAbs]
    omega

section Rounding

variable (hp : 1 < f.precision) (hl : f.quantum + f.precision < f.limit)

include hp hl

theorem isNearest_roundUnits (negative : Bool) {units : ℕ} (h : Representable units)
    (h' : Representable (f.roundUnits units 1)) (hlt : f.roundUnits units 1 < 2 ^ f.limit) :
    IsNearest f (finite negative units h) (finite negative (f.roundUnits units 1) h') := by
  have hp' : 0 < f.precision := by omega
  have hq : f.quantum ≤ binary64.limit := by
    have := f.limit_le
    exact le_trans (by omega) this
  have hnear {k : ℕ} (hk : f.Holds k) : |(f.roundUnits units 1 : ℤ) - units| ≤ |(k : ℤ) - units| := by
    simpa using Format.roundUnits_nearest (a := units) hp' Nat.one_pos hk
  refine ⟨Format.contains_roundUnits hp hl hlt, ?_, ?_⟩
  · rintro z _ _ r hz ⟨⟩ ⟨⟩ hr
    rw [abs_signed_sub_signed]
    exact (hnear (holds_of_inFormat hp' hq hz hr)).trans (abs_natAbs_sub_le negative units r)
  · rintro z _ _ r hz ⟨⟩ ⟨⟩ hr hne htie
    have hk := holds_of_inFormat hp' hq hz hr
    have hzero := hnear (Nat.dvd_zero _)
    rw [abs_signed_sub_signed] at htie
    rw [natAbs_signed]
    refine Format.hasEvenSignificand_of_tie hp hl hlt hk ?_ (le_antisymm ?_ (hnear hk))
    · -- Of the same magnitude there is only the number with the other sign, which is farther away.
      intro heq
      cases negative <;> simp only [signed_false, signed_true, Int.abs_eq_natAbs] at hne htie hzero <;> omega
    · exact (abs_natAbs_sub_le negative units r).trans htie.le

theorem roundsTo_ofRatio (negative : Bool) {units : ℕ} (h : Representable units) :
    RoundsTo f (finite negative units h) (ofRatio f negative units 1) := by
  rw [ofRatio]
  split_ifs with hlt
  · exact .nearest ((Format.roundUnits_lt_iff hp hl).1 hlt) (isNearest_roundUnits hp hl negative h _ hlt)
  · exact .beyond (not_lt.1 (mt (Format.roundUnits_lt_iff hp hl).2 hlt))

end Rounding

/-- Rounding a second time changes nothing. -/
theorem ofRatio_roundUnits (hp : 0 < f.precision) (negative : Bool) (a b : ℕ) :
    ofRatio f negative (f.roundUnits a b) 1 = ofRatio f negative a b :=
  ofRatio_eq_of_roundUnits (Format.roundUnits_of_holds (Format.holds_roundUnits hp a b))

/-! ### Order -/

/-- The magnitude that rounding to the format gives; an infinity lies where the range of doubles ends. -/
def roundedMagnitude (f : Format) (units : ℕ) : ℕ :=
  if f.roundUnits units 1 < 2 ^ f.limit then f.roundUnits units 1 else unitsEnd

theorem position_ofRatio (f : Format) (negative : Bool) (units : ℕ) :
    (ofRatio f negative units 1).position = some (signed negative (roundedMagnitude f units)) := by
  rw [ofRatio, roundedMagnitude]
  split_ifs <;> rfl

theorem roundedMagnitude_mono (hp : 0 < f.precision) : Monotone (roundedMagnitude f) := by
  intro a c h
  have hround := Format.roundUnits_mono hp Nat.one_pos h
  have hend := two_pow_le_unitsEnd f.limit_le
  rw [roundedMagnitude, roundedMagnitude]
  split_ifs <;> omega

theorem signed_le_signed_map {g : ℕ → ℕ} (hg : Monotone g) (h0 : g 0 = 0) {s t : Bool} {k l : ℕ}
    (h : signed s k ≤ signed t l) : signed s (g k) ≤ signed t (g l) := by
  cases s <;> cases t <;> simp only [signed_false, signed_true] at h ⊢
  · exact_mod_cast hg (by exact_mod_cast h)
  · obtain rfl : k = 0 := by omega
    obtain rfl : l = 0 := by omega
    omega
  · omega
  · exact neg_le_neg (by exact_mod_cast hg (by omega))

/-! ### Single precision -/

theorem roundsTo_toSingle (x : Double) : RoundsTo binary32 x x.toSingle := by
  cases x with
  | nan => exact .nan
  | infinity negative => exact .infinity negative
  | finite negative units h => exact roundsTo_ofRatio (by decide) (by decide) negative h

theorem RoundsTo.inFormat (h : RoundsTo f x y) : y.InFormat f := by
  cases h with
  | nan | infinity | beyond => trivial
  | nearest hwithin hnearest => exact hnearest.inFormat

theorem toSingle_toSingle (x : Double) : x.toSingle.toSingle = x.toSingle := by
  cases x with
  | nan | infinity => rfl
  | finite negative units h =>
    have hagain := ofRatio_roundUnits (f := binary32) (by decide) negative units 1
    rw [toSingle]
    rcases ofRatio_cases binary32 units 1 with ⟨h', hr⟩ | hr
    · rw [hr] at hagain ⊢
      exact hagain
    · rw [hr]
      rfl

theorem position_toSingle {p : ℤ} (h : x.position = some p) : ∃ negative units, p = signed negative units ∧
    x.toSingle.position = some (signed negative (roundedMagnitude binary32 units)) := by
  cases x with
  | nan => cases h
  | infinity negative =>
    cases h
    have hend := Format.not_roundUnits_unitsEnd_lt (f := binary32) (by decide) (by decide)
    exact ⟨negative, unitsEnd, rfl, by rw [roundedMagnitude, if_neg hend]; rfl⟩
  | finite negative units hu =>
    cases h
    exact ⟨negative, units, rfl, position_ofRatio binary32 negative units⟩

theorem le_iff : x.le y = true ↔ ∃ p q, x.position = some p ∧ y.position = some q ∧ p ≤ q := by
  rw [le, compare]
  cases x.position <;> cases y.position <;> simp

theorem toSingle_le_toSingle (h : x.le y = true) : x.toSingle.le y.toSingle = true := by
  obtain ⟨p, q, hp, hq, hle⟩ := le_iff.1 h
  obtain ⟨s, k, rfl, hk⟩ := position_toSingle hp
  obtain ⟨t, l, rfl, hl⟩ := position_toSingle hq
  have hzero : roundedMagnitude binary32 0 = 0 := by
    rw [roundedMagnitude, Format.roundUnits_of_holds (Nat.dvd_zero _), if_pos (Nat.two_pow_pos _)]
  exact le_iff.2 ⟨_, _, hk, hl, signed_le_signed_map (roundedMagnitude_mono (by decide)) hzero hle⟩

end Double
end ScalarScript
