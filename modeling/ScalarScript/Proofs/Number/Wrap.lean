import Mathlib.Data.Int.ModEq
import Mathlib.Tactic.Ring
import ScalarScript.Number.Width
import ScalarScript.Number.Wrap

/-! Two's complement as a residue. Reduction to some bits is the balanced remainder by their power of two, so
it gives the one congruent integer in the signed range. -/
namespace ScalarScript

theorem wrap_eq_bmod (n : ℤ) (bits : ℕ) : wrap n (bits + 1) = n.bmod (2 ^ (bits + 1)) := by
  have hpow : (2 : ℤ) ^ (bits + 1) = 2 * 2 ^ bits := by ring
  simp only [wrap, Int.bmod_def]
  push_cast
  rw [hpow]
  generalize n % (2 * 2 ^ bits) = low
  generalize (2 : ℤ) ^ bits = half
  split_ifs <;> omega

/-- The reduced integer is the one in range that is congruent to the integer. -/
theorem wrap_eq_iff {n r : ℤ} {bits : ℕ} :
    wrap n (bits + 1) = r ↔ (-(2 : ℤ) ^ bits ≤ r ∧ r < 2 ^ bits) ∧ r ≡ n [ZMOD 2 ^ (bits + 1)] := by
  have hpow : (2 : ℤ) ^ (bits + 1) = 2 * 2 ^ bits := by ring
  rw [wrap_eq_bmod, Int.bmod_eq_iff (Nat.two_pow_pos _), Int.modEq_comm, Int.modEq_iff_dvd, and_assoc]
  push_cast
  rw [hpow]
  generalize (2 : ℤ) ^ bits = half
  have hhalf : 2 * half / 2 = half := by omega
  have hup : (2 * half + 1) / 2 = half := by omega
  rw [hhalf, hup]

theorem wrap_modEq (n : ℤ) (bits : ℕ) : wrap n (bits + 1) ≡ n [ZMOD 2 ^ (bits + 1)] := (wrap_eq_iff.1 rfl).2

theorem wrap_congr {m n : ℤ} {bits : ℕ} (h : m ≡ n [ZMOD 2 ^ (bits + 1)]) : wrap m (bits + 1) = wrap n (bits + 1) :=
  wrap_eq_iff.2 ⟨(wrap_eq_iff.1 rfl).1, (wrap_modEq n bits).trans h.symm⟩

/-- Of two reductions only the one to fewer bits matters, if it comes last. -/
theorem wrap_wrap (n : ℤ) {bits wider : ℕ} (h : bits ≤ wider) : wrap (wrap n (wider + 1)) (bits + 1) = wrap n (bits + 1) :=
  wrap_congr ((wrap_modEq n wider).of_dvd (pow_dvd_pow 2 (Nat.succ_le_succ h)))

/-- An integer that the width has room for, in place of one that it may not. -/
def Width.IsResidue (w : Width) (n m : ℤ) : Prop := w.fits m = true ∧ m ≡ n [ZMOD 2 ^ w.bits]

theorem Width.isResidue_iff {w : Width} {n m : ℤ} : w.IsResidue n m ↔ wrap n w.bits = m := by
  simp only [IsResidue, fits, Bool.and_eq_true, decide_eq_true_eq]
  cases w with
  | int32 => exact wrap_eq_iff.symm
  | int64 => exact wrap_eq_iff.symm

end ScalarScript
