import ScalarScript.Number.Double

/-! The 64-bit layout of doubles: a sign bit, eleven exponent bits and the low 52 bits of the
significand. -/
namespace ScalarScript.Double

-- Powers are the ones of the core library, whatever else is imported.
attribute [local instance (high)] instPowNat

/-- Bits of the fraction field, the lowest of the word. -/
def fractionBits : Nat := 52

/-- Bits of the exponent field. -/
def exponentBits : Nat := 11

/-- Where the sign bit stands, above the other two fields. -/
def signBit : Nat := 63

/-- The number that a 64-bit word lays out. -/
def ofBits (word : Nat) : Double :=
  let negative := word / 2 ^ signBit % 2 == 1
  let exponent := word / 2 ^ fractionBits % 2 ^ exponentBits
  let fraction := word % 2 ^ fractionBits
  if exponent = 2047 then (if fraction = 0 then .infinity negative else .nan)
  else if exponent = 0 then ofRatio binary64 negative fraction 1
  else ofRatio binary64 negative ((2 ^ fractionBits + fraction) * 2 ^ (exponent - 1)) 1

/-- The exponent and significand fields of a number of units. From `2^52` units on, the leading bit
of the significand adds one to the exponent. -/
def magnitudeBits (units : Nat) : Nat :=
  let shift := units.log2 - fractionBits
  shift * 2 ^ fractionBits + units / 2 ^ shift

/-- The word of a number; NaN is the quiet one without a sign. -/
def toBits : Double → Nat
  | .nan => 0xfff * 2 ^ (fractionBits - 1)
  | .infinity negative => negative.toNat * 2 ^ signBit + 0x7ff * 2 ^ fractionBits
  | .finite negative units _ => negative.toNat * 2 ^ signBit + magnitudeBits units

end ScalarScript.Double
