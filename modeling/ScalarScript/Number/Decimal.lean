import ScalarScript.Number.Double

/-! Decimal numbers, their nearest double, and the shortest decimal of a double: the fewest digits
that read back, and of those the nearest to the value. -/
namespace ScalarScript

-- Powers are the ones of the core library, whatever else is imported.
attribute [local instance (high)] instPowNat

/-- The number `digits * 10 ^ exponent`. -/
structure Decimal where
  digits : Nat
  exponent : Int
  deriving DecidableEq

/-- The double nearest to a decimal. The first branches answer beyond the range of doubles, where
the power of ten would be needlessly large: from `10^309` on, and up to `2^-1075`. -/
def Double.ofDecimal (negative : Bool) (d : Decimal) : Double :=
  if d.digits = 0 then zero negative
  else if 309 ≤ d.exponent then .infinity negative
  else if d.digits.log2 + 1 + 3 * d.exponent ≤ -1075 then zero negative
  else ofRatio binary64 negative (d.digits * 10 ^ d.exponent.toNat * one) (10 ^ (-d.exponent).toNat)

namespace Decimal

/-- Whether a number of units lies below ten to a power. -/
def below (units : Nat) (power : Int) : Bool :=
  units * 10 ^ (-power).toNat < Double.one * 10 ^ power.toNat

/-- The least power of ten above a positive number of units. The binary logarithm leaves two powers
to choose from. -/
def magnitude (units : Nat) : Int :=
  let floor : Int := (units.log2 - 1074) * 30103 / 100000
  if below units (floor + 1) then floor + 1 else floor + 2

def readsBack (d : Decimal) (units : Nat) : Bool :=
  match Double.ofDecimal false d with
  | .finite _ other _ => other == units
  | _ => false

/-- Of the value's two neighbours among the multiples of ten to a power, the nearer one if it reads
back, else the other one if that does. At a midpoint the even one counts as nearer. -/
def neighbour? (units : Nat) (exponent : Int) : Option Decimal :=
  let num := units * 10 ^ (-exponent).toNat
  let den := Double.one * 10 ^ exponent.toNat
  let nearer := roundHalfEven num den
  let farther := 2 * (num / den) + 1 - nearer
  [⟨nearer, exponent⟩, ⟨farther, exponent⟩].find? (readsBack · units)

/-- Drops `drop` of the digits of a decimal that reads back, if what is left does so too. -/
def dropDigits (units : Nat) (d : Decimal) (drop : Nat) : Decimal :=
  (neighbour? units (d.exponent + drop)).getD d

/-- The exact decimal of a number of units. -/
def exact (units : Nat) : Decimal := ⟨units * 5 ^ (1074 : Nat), -1074⟩

/-- The shortest decimal that reads back as the given units. Seventeen digits always suffice. More
digits bring the neighbours nearer to the value, so the counts that suffice have no gaps, and halving
steps from sixteen digits on find the least. -/
def shortest (units : Nat) : Decimal :=
  let m := magnitude units
  match neighbour? units (m - 16) with
  | some d => [8, 4, 2, 1].foldl (dropDigits units) d
  | none => (neighbour? units (m - 17)).getD (exact units)

end Decimal
end ScalarScript
