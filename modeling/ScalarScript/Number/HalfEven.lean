/-! Rounding a quotient of natural numbers to the nearest natural number, a half going to the even
neighbour. The result is one of the two neighbours of the quotient, and exact quotients stay. -/
namespace ScalarScript

/-- The natural number nearest to `num / den`, the even one at a midpoint. -/
def roundHalfEven (num den : Nat) : Nat :=
  let q := num / den
  let r := num % den
  if 2 * r < den then q
  else if den < 2 * r then q + 1
  else q + q % 2

theorem div_le_roundHalfEven (num den : Nat) : num / den ≤ roundHalfEven num den := by
  simp only [roundHalfEven]; split
  · omega
  · split <;> omega

theorem roundHalfEven_le (num den : Nat) : roundHalfEven num den ≤ num / den + 1 := by
  simp only [roundHalfEven]; split
  · omega
  · split <;> omega

theorem roundHalfEven_mul_left (k den : Nat) (h : 0 < den) : roundHalfEven (k * den) den = k := by
  simp [roundHalfEven, Nat.mul_div_left k h, h]

/-- The rounding error is at most half of the denominator. -/
theorem roundHalfEven_error (num den : Nat) (h : 0 < den) :
    2 * (roundHalfEven num den * den) ≤ 2 * num + den ∧
      2 * num ≤ 2 * (roundHalfEven num den * den) + den := by
  have hd := Nat.div_add_mod num den
  have hr := Nat.mod_lt num h
  rw [Nat.mul_comm] at hd
  simp only [roundHalfEven]
  generalize num / den = q at hd
  generalize num % den = r at hd hr
  split
  · omega
  · have := Nat.add_mul q 1 den
    split
    · omega
    · have := Nat.add_mul q (q % 2) den
      rcases Nat.mod_two_eq_zero_or_one q with hq | hq <;> rw [hq] at this ⊢ <;> omega

end ScalarScript
