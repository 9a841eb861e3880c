import ScalarScript.Fault

/-! Two's complement reduction of an integer to a number of bits. -/
namespace ScalarScript

-- Powers are the ones of the core library, whatever else is imported.
attribute [local instance (high)] instPowNat

/-- The signed reading of the low `bits` bits of `n`. Without any bit the answer is `-1`: the empty
word reaches the sign boundary at once. -/
def wrap (n : Int) (bits : Nat) : Int :=
  let modulus : Int := 2 ^ bits
  let low := n % modulus
  if modulus / 2 ≤ low then low - modulus else low

/-- Reduction to a number of bits that may come out negative, which is refused. -/
def wrap? (n bits : Int) : Except Fault Int :=
  if bits < 0 then .error .negativeWidth else .ok (wrap n bits.toNat)

/-- With at least one bit the result lies in the signed range. -/
theorem wrap_bounds (n : Int) (bits : Nat) :
    -(2 : Int) ^ bits ≤ wrap n (bits + 1) ∧ wrap n (bits + 1) < 2 ^ bits := by
  have h : (0 : Int) < 2 ^ bits := Int.pow_pos (by decide)
  have hs : (2 : Int) ^ (bits + 1) = 2 * 2 ^ bits := by rw [Int.pow_succ]; omega
  simp only [wrap, hs]
  generalize (2 : Int) ^ bits = m at h
  have := Int.emod_nonneg n (show 2 * m ≠ 0 by omega)
  have := Int.emod_lt_of_pos n (show 0 < 2 * m by omega)
  split <;> omega

end ScalarScript
