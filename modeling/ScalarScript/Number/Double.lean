import ScalarScript.Number.HalfEven

/-! Double-precision numbers as exact values. A finite double is a sign and a natural number of
units of `2^-1074`; at most 53 leading bits of that number are used, and it stays below `2^2098`
units, which is `2^1024`. A zero keeps its sign, and there is one NaN, so equal terms are equal
numbers. Every inexact result comes from `Double.ofRatio`, which rounds a quotient once, to nearest
with ties to even, in a given format. -/
namespace ScalarScript

-- Powers are the ones of the core library, whatever else is imported.
attribute [local instance (high)] instPowNat

/-- The end of the range: every finite double has fewer units. -/
@[irreducible] def unitsEnd : Nat := 2 ^ (2098 : Nat)

theorem two_pow_le_unitsEnd {k : Nat} (h : k ≤ 2098) : 2 ^ k ≤ unitsEnd := by
  unfold unitsEnd
  generalize 2098 = n at *
  exact Nat.pow_le_pow_right (by decide) h

theorem unitsEnd_pos : 0 < unitsEnd := Nat.lt_of_lt_of_le (by decide) (two_pow_le_unitsEnd (Nat.zero_le _))

/-- Numbers of units that a double holds: 53 bits from the first, below the end of the range. -/
def Representable (units : Nat) : Prop := units < unitsEnd ∧ 2 ^ (units.log2 - 52) ∣ units

instance (units : Nat) : Decidable (Representable units) := inferInstanceAs (Decidable (_ ∧ _))

inductive Double where
  | nan
  | infinity (negative : Bool)
  | finite (negative : Bool) (units : Nat) (representable : Representable units)
  deriving DecidableEq

/-- A binary format within the doubles: `precision` bits, spacing never finer than `2^quantum`
units, and every number below `2^limit` units. -/
structure Format where
  precision : Nat
  quantum : Nat
  limit : Nat
  precision_le : precision ≤ 53 := by decide
  limit_le : limit ≤ 2098 := by decide

def binary64 : Format where
  precision := 53
  quantum := 0
  limit := 2098

def binary32 : Format where
  precision := 24
  quantum := 925
  limit := 1202

namespace Format

/-- The spacing of the format around `num / den` is `2` to this power. -/
def spacing (f : Format) (num den : Nat) : Nat := max f.quantum ((num / den).log2 + 1 - f.precision)

/-- The number of units nearest to `num / den` in the format, its range left aside. -/
def roundUnits (f : Format) (num den : Nat) : Nat :=
  let step := 2 ^ f.spacing num den
  roundHalfEven num (den * step) * step

theorem div_lt_two_pow (f : Format) (num den : Nat) :
    num / den < 2 ^ (f.precision + f.spacing num den) := by
  refine Nat.lt_of_lt_of_le Nat.lt_log2_self (Nat.pow_le_pow_right (by decide) ?_)
  have : (num / den).log2 + 1 - f.precision ≤ f.spacing num den := Nat.le_max_right ..
  omega

theorem significand_le (f : Format) (num den : Nat) :
    roundHalfEven num (den * 2 ^ f.spacing num den) ≤ 2 ^ f.precision := by
  refine Nat.le_trans (roundHalfEven_le ..) ?_
  rw [← Nat.div_div_eq_div_mul]
  refine Nat.div_lt_of_lt_mul ?_
  rw [← Nat.pow_add, Nat.add_comm]
  exact f.div_lt_two_pow num den

end Format

/-- At most 53 bits, shifted by any amount, use no more than 53 leading bits. -/
theorem two_pow_log2_dvd_shift {m : Nat} (h : m ≤ 2 ^ (53 : Nat)) (s : Nat) :
    2 ^ ((m * 2 ^ s).log2 - 52) ∣ m * 2 ^ s := by
  by_cases hm : m = 0
  · simp [hm]
  have hp : 0 < 2 ^ s := Nat.two_pow_pos s
  by_cases hlt : m = 2 ^ (53 : Nat)
  · subst hlt
    rw [← Nat.pow_add, Nat.log2_two_pow]
    exact Nat.pow_dvd_pow 2 (by omega)
  · have hlog : (m * 2 ^ s).log2 < 53 + s := by
      rw [Nat.log2_lt (Nat.mul_ne_zero hm (Nat.ne_of_gt hp)), Nat.pow_add]
      exact Nat.mul_lt_mul_of_pos_right (Nat.lt_of_le_of_ne h hlt) hp
    exact Nat.dvd_trans (Nat.pow_dvd_pow 2 (by omega)) (Nat.dvd_mul_left (2 ^ s) m)

namespace Format

theorem representable_roundUnits (f : Format) (num den : Nat) (h : f.roundUnits num den < 2 ^ f.limit) :
    Representable (f.roundUnits num den) := by
  have hp : 2 ^ f.precision ≤ 2 ^ (53 : Nat) := Nat.pow_le_pow_right (by decide) f.precision_le
  have hl : 2 ^ f.limit ≤ unitsEnd := two_pow_le_unitsEnd f.limit_le
  exact ⟨Nat.lt_of_lt_of_le h hl, two_pow_log2_dvd_shift (Nat.le_trans (f.significand_le num den) hp) _⟩

end Format

theorem representable_zero : Representable 0 := ⟨unitsEnd_pos, Nat.dvd_zero _⟩

namespace Double

/-- The number nearest to `num / den` units in the format, with the given sign; infinite from the
end of the format's range on. -/
def ofRatio (f : Format) (negative : Bool) (num den : Nat) : Double :=
  if h : f.roundUnits num den < 2 ^ f.limit then
    .finite negative (f.roundUnits num den) (f.representable_roundUnits num den h)
  else .infinity negative

def zero (negative : Bool) : Double := .finite negative 0 representable_zero

/-- Units in one. -/
def one : Nat := 2 ^ (1074 : Nat)

def ofInt (n : Int) : Double := ofRatio binary64 (n < 0) (n.natAbs * one) 1

/-- The number, unless it is infinite. -/
def finite? : Double → Option Double
  | .infinity _ => none
  | x => some x

/-- The nearest double of an integer, if that is finite. -/
def ofInt? (n : Int) : Option Double := (ofInt n).finite?

def ofBool (b : Bool) : Double := ofInt b.toInt

/-- Rounding to the nearest single-precision number. -/
def toSingle : Double → Double
  | .finite negative units _ => ofRatio binary32 negative units 1
  | x => x

/-- Zero of either sign; NaN is not zero. -/
def isZero : Double → Bool
  | .finite _ 0 _ => true
  | _ => false

/-- The signed number of units. -/
def signed (negative : Bool) (units : Nat) : Int := if negative then -(units : Int) else units

/-- The integer part, toward zero; NaN and the infinities have none and give `0`. -/
def truncate : Double → Int
  | .finite negative units _ => signed negative (units / one)
  | _ => 0

/-- A finite number without a fraction. -/
def isIntegral : Double → Bool
  | .finite _ units _ => units % one == 0
  | _ => false

end Double
end ScalarScript
