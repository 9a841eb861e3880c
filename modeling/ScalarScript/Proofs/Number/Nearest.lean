import Mathlib.Algebra.Order.Ring.Abs
import ScalarScript.Number.Arithmetic
import ScalarScript.Proofs.Number.Decimal

/-! Rounding finds the nearest number of a format. It goes beyond the range from halfway between the largest
number and the end of the range on. So an integer has a finite double just if it is short of that point, and no
double is nearer to it than its own. -/
namespace ScalarScript

variable {a b : ℕ}

/-! ### Quotients -/

/-- No multiple of the denominator is nearer to the numerator than the rounded quotient's. -/
theorem roundHalfEven_nearest (a : ℕ) (hb : 0 < b) (k : ℕ) :
    |(roundHalfEven a b * b : ℤ) - a| ≤ |(k * b : ℤ) - a| := by
  obtain ⟨hlow, hhigh⟩ := roundHalfEven_error a b hb
  generalize roundHalfEven a b = r at hlow hhigh ⊢
  have hk : k * b + b ≤ r * b ∨ k = r ∨ r * b + b ≤ k * b := by
    rcases Nat.lt_trichotomy k r with h | h | h
    · exact .inl (Nat.succ_mul k b ▸ Nat.mul_le_mul_right b h)
    · exact .inr (.inl h)
    · exact .inr (.inr (Nat.succ_mul r b ▸ Nat.mul_le_mul_right b h))
  simp only [Int.abs_eq_natAbs]
  rcases hk with h | rfl | h
  · omega
  · rfl
  · omega

/-- Halfway below an even number, the quotient is rounded up to it. -/
theorem roundHalfEven_lt_iff (hb : 0 < b) {k : ℕ} (hk : k % 2 = 0) :
    roundHalfEven a b < k ↔ 2 * a + b < 2 * (k * b) := by
  have hd : a / b * b + a % b = a := by rw [Nat.mul_comm]; exact Nat.div_add_mod a b
  have hr := Nat.mod_lt a hb
  rcases Nat.lt_trichotomy (a / b + 1) k with h | h | h
  · have hm := Nat.mul_le_mul_right b h
    rw [Nat.succ_mul, Nat.succ_mul] at hm
    exact iff_of_true (Nat.lt_of_le_of_lt (roundHalfEven_le a b) h) (by omega)
  · have hm : k * b = a / b * b + b := by rw [← h, Nat.succ_mul]
    have hodd : a / b % 2 = 1 := by omega
    simp only [roundHalfEven, hodd]
    split
    · omega
    · split <;> omega
  · have hm := Nat.mul_le_mul_right b (Nat.lt_succ_iff.1 h)
    exact iff_of_false (Nat.not_lt.2 (Nat.le_trans (Nat.lt_succ_iff.1 h) (div_le_roundHalfEven a b))) (by omega)

/-! ### Formats -/

namespace Format

variable {f : Format}

theorem quantum_le_spacing (f : Format) (a b : ℕ) : f.quantum ≤ f.spacing a b := Nat.le_max_left ..

theorem holds_two_pow (hp : 0 < f.precision) {k : ℕ} (hk : f.quantum ≤ k) : f.Holds (2 ^ k) := by
  refine Nat.pow_dvd_pow 2 ?_
  rw [spacing, Nat.div_one, Nat.log2_two_pow]
  omega

/-- Short of a power of two, a multiple of the spacing up to that power is held. -/
theorem holds_mul_two_pow {m s : ℕ} (hm : m < 2 ^ f.precision) (hs : f.quantum ≤ s) : f.Holds (m * 2 ^ s) := by
  by_cases h0 : m = 0
  · simp [Holds, h0]
  have hlog : (m * 2 ^ s).log2 < f.precision + s := by
    rw [Nat.log2_lt (Nat.mul_ne_zero h0 (Nat.two_pow_pos s).ne'), Nat.pow_add]
    exact Nat.mul_lt_mul_of_pos_right hm (Nat.two_pow_pos s)
  refine Nat.dvd_trans (Nat.pow_dvd_pow 2 ?_) (Nat.dvd_mul_left (2 ^ s) m)
  rw [spacing, Nat.div_one]
  omega

theorem holds_roundUnits (hp : 0 < f.precision) (a b : ℕ) : f.Holds (f.roundUnits a b) := by
  have hs := f.quantum_le_spacing a b
  rcases Nat.lt_or_eq_of_le (f.significand_le a b) with hm | hm
  · exact holds_mul_two_pow hm hs
  · rw [roundUnits, hm, ← Nat.pow_add]
    exact holds_two_pow hp (by omega)

/-- A number that the format holds and the spacing does not divide lies below a power of two that the
spacing divides and the quotient reaches. -/
theorem exists_two_pow_between (hp : 0 < f.precision) {units : ℕ} (hu : f.Holds units)
    (hs : ¬ 2 ^ f.spacing a b ∣ units) : ∃ k, f.spacing a b ≤ k ∧ units < 2 ^ k ∧ 2 ^ k ≤ a / b := by
  have hlt : f.spacing units 1 < f.spacing a b :=
    Nat.lt_of_not_le fun h => hs (Nat.dvd_trans (Nat.pow_dvd_pow 2 h) hu)
  have h0 : units ≠ 0 := fun h => hs (h ▸ Nat.dvd_zero _)
  rw [spacing, spacing, Nat.div_one] at hlt
  have hq : a / b ≠ 0 := by
    intro h
    rw [h, Nat.log2_zero] at hlt
    omega
  refine ⟨(a / b).log2, ?_, (Nat.log2_lt h0).1 (by omega), Nat.log2_self_le hq⟩
  rw [spacing]
  omega

/-- No number of the format is nearer to the quotient than the rounded one. -/
theorem roundUnits_nearest (hp : 0 < f.precision) (hb : 0 < b) {units : ℕ} (hu : f.Holds units) :
    |(f.roundUnits a b * b : ℤ) - a| ≤ |(units * b : ℤ) - a| := by
  have hmul : ∀ k : ℕ, |(f.roundUnits a b * b : ℤ) - a| ≤ |((k * 2 ^ f.spacing a b : ℕ) * b : ℤ) - a| := by
    intro k
    have h := roundHalfEven_nearest a (Nat.mul_pos hb (Nat.two_pow_pos (f.spacing a b))) k
    rw [roundUnits]
    push_cast at h ⊢
    rwa [mul_assoc, mul_assoc, mul_comm _ (b : ℤ)]
  by_cases hs : 2 ^ f.spacing a b ∣ units
  · obtain ⟨k, rfl⟩ := hs
    rw [Nat.mul_comm]
    exact hmul k
  · obtain ⟨k, hk, hlt, hle⟩ := exists_two_pow_between hp hu hs
    have hpow := hmul (2 ^ (k - f.spacing a b))
    rw [← Nat.pow_add, Nat.sub_add_cancel hk] at hpow
    have hle : 2 ^ k * b ≤ a := (Nat.le_div_iff_mul_le hb).1 hle
    have hlt : units * b < 2 ^ k * b := Nat.mul_lt_mul_of_pos_right hlt hb
    refine hpow.trans ?_
    simp only [Int.abs_eq_natAbs]
    generalize 2 ^ k = t at hle hlt ⊢
    omega

theorem precision_add_spacing_le (f : Format) {k : ℕ} (hk : 0 < k) (h : a / b < 2 ^ k) :
    f.precision + f.spacing a b ≤ max (f.precision + f.quantum) k := by
  have hlog : (a / b).log2 < k := by
    by_cases h0 : a / b = 0
    · rwa [h0, Nat.log2_zero]
    · exact (Nat.log2_lt h0).2 h
  rw [spacing]
  omega

/-- In the last binade the spacing is what fits the precision between it and the end of the range. -/
theorem spacing_of_last (hl : f.quantum + f.precision < f.limit) (hlow : 2 ^ (f.limit - 1) ≤ a / b)
    (hhigh : a / b < 2 ^ f.limit) : f.spacing a b = f.limit - f.precision := by
  have h0 : a / b ≠ 0 := (Nat.lt_of_lt_of_le (Nat.two_pow_pos _) hlow).ne'
  have hge : f.limit - 1 ≤ (a / b).log2 := (Nat.le_log2 h0).2 hlow
  have hlt : (a / b).log2 < f.limit := (Nat.log2_lt h0).2 hhigh
  rw [spacing]
  omega

/-- Rounding goes beyond the range from half a spacing below its end on. -/
theorem roundUnits_lt_limit_iff (hp : 0 < f.precision) (hl : f.quantum + f.precision < f.limit) (hb : 0 < b) :
    f.roundUnits a b < 2 ^ f.limit ↔ 2 * a + b * 2 ^ (f.limit - f.precision) < 2 * (2 ^ f.limit * b) := by
  have hpow : 2 ^ f.limit = 2 ^ f.precision * 2 ^ (f.limit - f.precision) := by
    rw [← Nat.pow_add]
    congr 1
    omega
  have hhalf : 2 ^ f.limit = 2 * 2 ^ (f.limit - 1) := by
    rw [← Nat.pow_succ']
    congr 1
    omega
  rcases Nat.lt_or_ge (a / b) (2 ^ (f.limit - 1)) with hlow | hlow
  · have hspacing : f.precision + f.spacing a b < f.limit := by
      have := f.precision_add_spacing_le (by omega) hlow
      omega
    refine iff_of_true (f.roundUnits_le.trans_lt (Nat.pow_lt_pow_right (by decide) hspacing)) ?_
    have ha : a < 2 ^ (f.limit - 1) * b := (Nat.div_lt_iff_lt_mul hb).1 hlow
    have hstep : b * 2 ^ (f.limit - f.precision) ≤ 2 ^ f.limit * b := by
      rw [Nat.mul_comm]
      exact Nat.mul_le_mul_right b (Nat.pow_le_pow_right (by decide) (Nat.sub_le ..))
    rw [hhalf, Nat.mul_assoc] at hstep ⊢
    omega
  rcases Nat.lt_or_ge (a / b) (2 ^ f.limit) with hhigh | hhigh
  · have hd : 0 < b * 2 ^ (f.limit - f.precision) := Nat.mul_pos hb (Nat.two_pow_pos _)
    have heven : 2 ^ f.precision % 2 = 0 := Nat.mod_eq_zero_of_dvd (dvd_pow_self 2 hp.ne')
    rw [roundUnits, spacing_of_last hl hlow hhigh, hpow, Nat.mul_lt_mul_right (Nat.two_pow_pos _),
      roundHalfEven_lt_iff hd heven]
    rw [Nat.mul_assoc, Nat.mul_comm b]
  · have ha : 2 ^ f.limit * b ≤ a := (Nat.le_div_iff_mul_le hb).1 hhigh
    exact iff_of_false (Nat.not_lt.2 (f.two_pow_le_roundUnits hp (by omega) hhigh)) (by omega)

end Format

/-! ### Doubles -/

namespace Double

attribute [local irreducible] one

@[simp] theorem natAbs_signed (negative : Bool) (units : ℕ) : (signed negative units).natAbs = units := by
  cases negative <;> simp [signed]

/-- On the side of an integer, distances to it are distances of magnitudes. -/
theorem abs_signed_sub (n : ℤ) (units k : ℕ) :
    |signed (n < 0) units - n * k| = |(units : ℤ) - (n.natAbs * k : ℕ)| := by
  rcases lt_or_ge n 0 with h | h
  · have hn : ((n.natAbs * k : ℕ) : ℤ) = -(n * k) := by push_cast; rw [abs_of_neg h, neg_mul]
    rw [hn, signed, decide_eq_true h, if_pos rfl, ← abs_neg]
    congr 1
    ring
  · have hn : ((n.natAbs * k : ℕ) : ℤ) = n * k := by push_cast; rw [abs_of_nonneg h]
    rw [hn, signed, decide_eq_false (not_lt.2 h), if_neg Bool.false_ne_true]

/-! ### Integers as doubles -/

/-- Halfway from the largest double to the power of two after it. From here on integers are rounded
beyond the doubles. -/
@[irreducible] def integerEnd : ℕ := 2 ^ 1024 - 2 ^ 970

theorem integerEnd_eq : ∃ m n, m = 1024 ∧ n = 970 ∧ integerEnd = 2 ^ m - 2 ^ n := by
  unfold integerEnd
  generalize 1024 = m, 970 = n
  exact ⟨m, n, rfl, rfl, rfl⟩

theorem two_pow_63_lt_integerEnd : 2 ^ 63 < integerEnd := by
  unfold integerEnd
  decide +kernel

theorem roundUnits_ofInt_lt_iff (n : ℕ) :
    binary64.roundUnits (n * one) 1 < 2 ^ binary64.limit ↔ n < integerEnd := by
  obtain ⟨k, hk, hone⟩ := Decimal.one_eq
  obtain ⟨l, m, hl, hm, hend⟩ := integerEnd_eq
  have hlimit : binary64.limit = l + k := by
    rw [hl, hk]
    rfl
  have hstep : binary64.limit - binary64.precision = m + 1 + k := by
    rw [hm, hk]
    rfl
  rw [Format.roundUnits_lt_limit_iff (by decide) (by decide) Nat.one_pos, hstep, hlimit, hone, hend]
  have hk0 : 0 < 2 * 2 ^ k := Nat.mul_pos Nat.two_pos (Nat.two_pow_pos k)
  calc 2 * (n * 2 ^ k) + 1 * 2 ^ (m + 1 + k) < 2 * (2 ^ (l + k) * 1)
      ↔ (n + 2 ^ m) * (2 * 2 ^ k) < 2 ^ l * (2 * 2 ^ k) := by ring_nf
    _ ↔ n + 2 ^ m < 2 ^ l := Nat.mul_lt_mul_right hk0
    _ ↔ n < 2 ^ l - 2 ^ m := by omega

theorem exists_ofInt?_iff {n : ℤ} : (∃ x, ofInt? n = some x) ↔ n.natAbs < integerEnd := by
  rw [← roundUnits_ofInt_lt_iff, ofInt?, ofInt, ofRatio]
  split <;> simp [finite?, *]

/-- Every place of a double is one that the format holds, on either side. -/
theorem holds_of_position {x : Double} {p : ℤ} (h : x.position = some p) : binary64.Holds p.natAbs := by
  cases x with
  | nan => cases h
  | infinity negative =>
    cases h
    rw [natAbs_signed, unitsEnd_eq]
    exact Format.holds_two_pow (by decide) (Nat.zero_le _)
  | finite negative units hr =>
    cases h
    rw [natAbs_signed]
    exact (representable_iff.1 hr).2

/-- A finite double such that none is nearer to the integer, the infinities at the ends of the range
included. -/
def NearestTo (x : Double) (n : ℤ) : Prop :=
  ∃ negative units h, x = .finite negative units h ∧
    ∀ (y : Double) q, y.position = some q → |signed negative units - n * one| ≤ |q - n * one|

theorem nearestTo_of_ofInt? {n : ℤ} {x : Double} (h : ofInt? n = some x) : x.NearestTo n := by
  have hr := (roundUnits_ofInt_lt_iff n.natAbs).2 (exists_ofInt?_iff.1 ⟨x, h⟩)
  rw [ofInt?, ofInt, ofRatio, dif_pos hr] at h
  cases h
  refine ⟨_, _, _, rfl, fun y q hq => ?_⟩
  calc |signed (n < 0) (binary64.roundUnits (n.natAbs * one) 1) - n * one|
      = |(binary64.roundUnits (n.natAbs * one) 1 * (1 : ℕ) : ℤ) - (n.natAbs * one : ℕ)| := by
        rw [abs_signed_sub, Nat.cast_one, mul_one]
    _ ≤ |(q.natAbs * (1 : ℕ) : ℤ) - (n.natAbs * one : ℕ)| :=
        Format.roundUnits_nearest (by decide) Nat.one_pos (holds_of_position hq)
    _ = |(|q| - |n * one|)| := by
        rw [Nat.cast_one, mul_one, Int.natCast_natAbs, Nat.cast_mul, Int.natCast_natAbs, abs_mul, Nat.abs_cast]
    _ ≤ |q - n * one| := abs_abs_sub_abs_le q (n * one)

end Double
end ScalarScript
