import ScalarScript.Number.Bits
import ScalarScript.Proofs.Number.Rounding

/-! Words and doubles. Every word of 64 bits but those of NaN is laid out again as it was, since rounding
changes nothing that its fields write. So two words stand for one double only if they are the same word, or
are both words of NaN. -/
namespace ScalarScript.Double

-- Powers are the ones of the core library, whatever else is imported.
attribute [local instance (high)] instPowNat

/-! ### Fields -/

/-- The units that the exponent and fraction fields of a finite number write. -/
def fieldUnits (exponent fraction : ℕ) : ℕ :=
  if exponent = 0 then fraction else (2 ^ fractionBits + fraction) * 2 ^ (exponent - 1)

variable {exponent fraction : ℕ}

theorem representable_fieldUnits (he : exponent < 2047) (hf : fraction < 2 ^ fractionBits) :
    Representable (fieldUnits exponent fraction) := by
  have hp : (2 : ℕ) ^ (53 : ℕ) = 2 * 2 ^ fractionBits := rfl
  unfold fieldUnits
  split_ifs with h0
  · have hdvd := two_pow_log2_dvd_shift (m := fraction) (by omega) 0
    rw [Nat.pow_zero, Nat.mul_one] at hdvd
    exact ⟨hf.trans_le (two_pow_le_unitsEnd (by decide)), hdvd⟩
  · refine ⟨?_, two_pow_log2_dvd_shift (by omega) _⟩
    have hsum : 53 + (exponent - 1) ≤ 2098 := by omega
    calc (2 ^ fractionBits + fraction) * 2 ^ (exponent - 1) < 2 ^ (53 : ℕ) * 2 ^ (exponent - 1) :=
          Nat.mul_lt_mul_of_pos_right (by omega) (Nat.two_pow_pos _)
      _ = 2 ^ (53 + (exponent - 1)) := (Nat.pow_add ..).symm
      _ ≤ unitsEnd := two_pow_le_unitsEnd hsum

theorem log2_of_lt_fractionBits (hf : fraction < 2 ^ fractionBits) (k : ℕ) :
    ((2 ^ fractionBits + fraction) * 2 ^ k).log2 = fractionBits + k := by
  have hpos : 0 < 2 ^ fractionBits := Nat.two_pow_pos _
  have h0 : (2 ^ fractionBits + fraction) * 2 ^ k ≠ 0 := Nat.mul_ne_zero (by omega) (Nat.two_pow_pos k).ne'
  refine Nat.le_antisymm (Nat.le_of_lt_succ ((Nat.log2_lt h0).2 ?_)) ((Nat.le_log2 h0).2 ?_)
  · calc (2 ^ fractionBits + fraction) * 2 ^ k < 2 ^ (fractionBits + 1) * 2 ^ k :=
          Nat.mul_lt_mul_of_pos_right (by rw [Nat.pow_succ]; omega) (Nat.two_pow_pos k)
      _ = 2 ^ (fractionBits + k + 1) := by rw [← Nat.pow_add]; congr 1; omega
  · rw [Nat.pow_add]
    exact Nat.mul_le_mul_right _ (Nat.le_add_right _ _)

/-- The fields can be read off the number of units. -/
theorem magnitudeBits_fieldUnits (hf : fraction < 2 ^ fractionBits) :
    magnitudeBits (fieldUnits exponent fraction) = exponent * 2 ^ fractionBits + fraction := by
  unfold fieldUnits
  split_ifs with h0
  · have hlog : fraction.log2 - fractionBits = 0 := by
      by_cases hz : fraction = 0
      · simp [hz]
      · exact Nat.sub_eq_zero_of_le ((Nat.log2_lt hz).2 hf).le
    simp [magnitudeBits, hlog, h0]
  · obtain ⟨k, rfl⟩ : ∃ k, exponent = k + 1 := ⟨exponent - 1, by omega⟩
    have hpos : 0 < 2 ^ k := Nat.two_pow_pos k
    simp only [magnitudeBits, Nat.add_sub_cancel, log2_of_lt_fractionBits hf, Nat.add_sub_cancel_left]
    rw [Nat.mul_div_cancel _ hpos]
    ring

/-! ### Words -/

def exponentField (word : ℕ) : ℕ := word / 2 ^ fractionBits % 2 ^ exponentBits

def fractionField (word : ℕ) : ℕ := word % 2 ^ fractionBits

/-- The words that stand for no number: all exponent bits are set, and some bit of the fraction. -/
def IsNanWord (word : ℕ) : Prop := exponentField word = 2047 ∧ fractionField word ≠ 0

theorem ofBits_eq (word : ℕ) :
    ofBits word =
      let negative := word / 2 ^ signBit % 2 == 1
      if exponentField word = 2047 then (if fractionField word = 0 then .infinity negative else .nan)
      else ofRatio binary64 negative (fieldUnits (exponentField word) (fractionField word)) 1 := by
  simp only [ofBits, exponentField, fractionField]
  by_cases h0 : word / 2 ^ fractionBits % 2 ^ exponentBits = 0
  · simp only [fieldUnits, h0, if_true]
    rfl
  · simp only [fieldUnits, h0, if_false]
    rfl

theorem ofBits_of_isNanWord {word : ℕ} (h : IsNanWord word) : ofBits word = .nan := by
  simp [ofBits_eq, h.1, h.2]

theorem sign_toNat_of_lt {word : ℕ} (h : word < 2 ^ (64 : ℕ)) :
    (word / 2 ^ signBit % 2 == 1).toNat = word / 2 ^ signBit := by
  have hb : word / 2 ^ signBit < 2 := Nat.div_lt_of_lt_mul h
  obtain hs | hs : word / 2 ^ signBit = 0 ∨ word / 2 ^ signBit = 1 := by
    generalize word / 2 ^ signBit = sign at hb
    omega
  · rw [hs]
    rfl
  · rw [hs]
    rfl

/-- A word is the sum of its fields. -/
theorem sum_fields (word : ℕ) :
    word / 2 ^ signBit * 2 ^ signBit + (exponentField word * 2 ^ fractionBits + fractionField word) = word := by
  have hfields : word / 2 ^ fractionBits % 2 ^ exponentBits * 2 ^ fractionBits + word % 2 ^ fractionBits =
      word % 2 ^ signBit := by
    have hsplit : (2 : ℕ) ^ signBit = 2 ^ fractionBits * 2 ^ exponentBits := rfl
    rw [hsplit, Nat.mod_mul, Nat.add_comm, Nat.mul_comm]
  rw [exponentField, fractionField, hfields]
  exact Nat.div_add_mod' word _

theorem toBits_ofBits {word : ℕ} (h : word < 2 ^ (64 : ℕ)) (hn : ¬IsNanWord word) : (ofBits word).toBits = word := by
  have hsum := sum_fields word
  rw [← sign_toNat_of_lt h] at hsum
  have hf : fractionField word < 2 ^ fractionBits := Nat.mod_lt _ (Nat.two_pow_pos _)
  rw [ofBits_eq]
  by_cases he : exponentField word = 2047
  · have h0 : fractionField word = 0 := by_contra fun h0 => hn ⟨he, h0⟩
    rw [he, h0] at hsum
    simp only [if_pos he, if_pos h0, toBits]
    exact hsum
  · have hlt : exponentField word < 2 ^ exponentBits := Nat.mod_lt _ (Nat.two_pow_pos _)
    have hr := representable_fieldUnits (show exponentField word < 2047 by simp [exponentBits] at hlt; omega) hf
    have hround (negative : Bool) := ofRatio_of_representable negative Nat.one_pos hr
    simp only [Nat.mul_one] at hround
    simp only [if_neg he, hround, toBits, magnitudeBits_fieldUnits hf]
    exact hsum

/-- Different words stand for different doubles, unless both are words of NaN. -/
theorem ofBits_eq_ofBits_iff {u w : ℕ} (hu : u < 2 ^ (64 : ℕ)) (hw : w < 2 ^ (64 : ℕ)) :
    ofBits u = ofBits w ↔ u = w ∨ IsNanWord u ∧ IsNanWord w := by
  -- A word that is laid out like NaN is a word of NaN.
  have hnan {word : ℕ} (h : word < 2 ^ (64 : ℕ)) (he : ofBits word = .nan) : IsNanWord word := by
    by_contra hn
    have hword := toBits_ofBits h hn
    rw [he] at hword
    exact hn (hword ▸ ⟨by decide, by decide⟩)
  constructor
  · intro h
    by_cases hnu : IsNanWord u
    · exact .inr ⟨hnu, hnan hw (h ▸ ofBits_of_isNanWord hnu)⟩
    · by_cases hnw : IsNanWord w
      · exact absurd (hnan hu (h.trans (ofBits_of_isNanWord hnw))) hnu
      · exact .inl (by rw [← toBits_ofBits hu hnu, h, toBits_ofBits hw hnw])
  · rintro (rfl | ⟨hnu, hnw⟩)
    · rfl
    · rw [ofBits_of_isNanWord hnu, ofBits_of_isNanWord hnw]

end ScalarScript.Double
