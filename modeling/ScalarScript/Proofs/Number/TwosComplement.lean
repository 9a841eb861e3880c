import Mathlib
import ScalarScript.Proofs.Number.Wrap

/-! Two's complement by bits. A mask of ones keeps the remainder by the power of two, of negative integers too, whose
ones go on without end. So reduction reads the masked bits, the highest of which counts negatively. What comes out is
told by its range and its residue, and the laws of reduction are those of congruence. -/
namespace ScalarScript

/-! ### Masks -/

/-- Remainder by an even modulus leaves the last bit alone. -/
theorem bit_emod (b : Bool) (n : ℤ) {modulus : ℤ} (h : 0 < modulus) :
    Int.bit b n % (2 * modulus) = Int.bit b (n % modulus) := by
  have hsplit : Int.bit b n = Int.bit b (n % modulus) + 2 * modulus * (n / modulus) := by
    rw [Int.bit_val, Int.bit_val]
    linarith [Int.emod_add_mul_ediv n modulus]
  have hlow := Int.emod_nonneg n h.ne'
  have hhigh := Int.emod_lt_of_pos n h
  have hbit : (0 : ℤ) ≤ cond b 1 0 ∧ cond b 1 0 ≤ (1 : ℤ) := by cases b <;> decide
  rw [hsplit, Int.add_mul_emod_self_left, Int.bit_val]
  exact Int.emod_eq_of_lt (by omega) (by omega)

theorem land_two_pow_sub_one (n : ℤ) (bits : ℕ) : n.land (2 ^ bits - 1) = n % 2 ^ bits := by
  induction bits generalizing n with
  | zero =>
    rw [pow_zero, sub_self, Int.emod_one]
    cases n <;> simp [Int.land, Nat.ldiff]
  | succ bits ih =>
    have hmask : (2 : ℤ) ^ (bits + 1) - 1 = Int.bit true (2 ^ bits - 1) := by
      rw [Int.bit_val, cond_true]
      ring
    calc n.land (2 ^ (bits + 1) - 1)
        = (Int.bit n.bodd n.div2).land (Int.bit true (2 ^ bits - 1)) := by rw [Int.bit_decomp, hmask]
      _ = Int.bit n.bodd (n.div2 % 2 ^ bits) := by rw [Int.land_bit, Bool.and_true, ih]
      _ = n % 2 ^ (bits + 1) := by rw [← bit_emod _ _ (by positivity), Int.bit_decomp, pow_succ']

/-- The masked bits, less the power of two from the sign boundary on. -/
theorem wrap_eq_masked (n : ℤ) (bits : ℕ) :
    wrap n (bits + 1) = n.land (2 ^ (bits + 1) - 1) -
      if 2 ^ bits ≤ n.land (2 ^ (bits + 1) - 1) then 2 ^ (bits + 1) else 0 := by
  have hhalf : (2 : ℤ) ^ (bits + 1) / 2 = 2 ^ bits := by rw [pow_succ, Int.mul_ediv_cancel _ two_ne_zero]
  rw [land_two_pow_sub_one]
  simp only [wrap]
  rw [hhalf]
  split_ifs
  · rfl
  · rw [sub_zero]

/-! ### Reduction -/

theorem wrap?_natCast (n : ℤ) (bits : ℕ) : wrap? n bits = .ok (wrap n bits) :=
  if_neg (not_lt.2 (Int.natCast_nonneg bits))

/-- Reduction to at least one bit gives the signed reading of the masked bits, which is the one integer in range that
is congruent to the integer. So it changes nothing in range, of two reductions the one to fewer bits matters, and
sums and products come out as they do of the reduced integers. -/
theorem wrap_twos_complement {bits : ℕ} (hb : 1 ≤ bits) :
    (∀ n : ℤ, wrap? n bits = .ok (wrap n bits)) ∧
    (∀ n : ℤ, wrap n bits = n.land (2 ^ bits - 1) -
      if 2 ^ (bits - 1) ≤ n.land (2 ^ bits - 1) then 2 ^ bits else 0) ∧
    (∀ n r : ℤ, r = wrap n bits ↔ r ∈ Set.Ico (-2 ^ (bits - 1)) (2 ^ (bits - 1)) ∧ r ≡ n [ZMOD 2 ^ bits]) ∧
    (∀ n : ℤ, n ∈ Set.Ico (-2 ^ (bits - 1)) (2 ^ (bits - 1)) → wrap n bits = n) ∧
    (∀ n : ℤ, wrap (wrap n bits) bits = wrap n bits) ∧
    (∀ (n : ℤ) (wider : ℕ), bits ≤ wider → wrap (wrap n wider) bits = wrap n bits) ∧
    (∀ u v : ℤ, wrap (wrap u bits + wrap v bits) bits = wrap (u + v) bits) ∧
    ∀ u v : ℤ, wrap (wrap u bits * wrap v bits) bits = wrap (u * v) bits := by
  obtain ⟨below, rfl⟩ := Nat.exists_eq_add_of_le' hb
  rw [Nat.add_sub_cancel]
  have hunique (n r : ℤ) :
      r = wrap n (below + 1) ↔ r ∈ Set.Ico (-2 ^ below) (2 ^ below) ∧ r ≡ n [ZMOD 2 ^ (below + 1)] := by
    rw [eq_comm, wrap_eq_iff, Set.mem_Ico]
  refine ⟨fun n => wrap?_natCast n _, fun n => wrap_eq_masked n below, hunique, fun n h => ?_, fun n => ?_,
    fun n wider h => ?_, fun u v => ?_, fun u v => ?_⟩
  · exact ((hunique n n).2 ⟨h, .rfl⟩).symm
  · exact wrap_wrap n le_rfl
  · obtain ⟨other, rfl⟩ := Nat.exists_eq_add_of_le' (hb.trans h)
    exact wrap_wrap n (Nat.le_of_succ_le_succ h)
  · exact wrap_congr ((wrap_modEq u below).add (wrap_modEq v below))
  · exact wrap_congr ((wrap_modEq u below).mul (wrap_modEq v below))

/-- One below the least integer of eight bits, and one that sixteen bits cut down first. -/
theorem wrap_twos_complement_of_byte :
    1 ≤ 8 ∧ wrap? (-129) 8 = .ok 127 ∧ (127 : ℤ) ∈ Set.Ico (-2 ^ 7) (2 ^ 7) ∧ wrap 127 8 = 127 ∧
      8 ≤ 16 ∧ wrap (wrap 65663 16) 8 = wrap 65663 8 := by
  have hbits : 1 ≤ 8 := by decide
  have hrange : (127 : ℤ) ∈ Set.Ico (-2 ^ 7) (2 ^ 7) := by decide
  obtain ⟨hok, -, hunique, hkept, -, hwider, -⟩ := wrap_twos_complement hbits
  refine ⟨hbits, ?_, hrange, hkept 127 hrange, by decide, hwider 65663 16 (by decide)⟩
  rw [(hunique (-129) 127).2 ⟨hrange, by decide⟩]
  exact hok (-129)

end ScalarScript
