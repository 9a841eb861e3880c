import ScalarScript.Number.Double

/-! Arithmetic and order of doubles. Finite operands give the exact result rounded once; the rest
follows the sign rules of infinities, zeros and NaN. The remainder takes the dividend's sign and is
NaN for a zero divisor or an infinite dividend. Order and equality compare positions on the number
line, where NaN has none and both zeros share one. -/
namespace ScalarScript.Double

def neg : Double → Double
  | .nan => .nan
  | .infinity negative => .infinity (!negative)
  | .finite negative units h => .finite (!negative) units h

/-- The rounded number of a signed count of units; an exact zero takes the sign given. -/
def ofSigned (zeroNegative : Bool) (n : Int) : Double :=
  if n = 0 then zero zeroNegative else ofRatio binary64 (n < 0) n.natAbs 1

def add : Double → Double → Double
  | .nan, _ | _, .nan => .nan
  | .infinity a, .infinity b => if a = b then .infinity a else .nan
  | .infinity a, .finite .. => .infinity a
  | .finite .., .infinity b => .infinity b
  | .finite a ua _, .finite b ub _ => ofSigned (a && b) (signed a ua + signed b ub)

def sub (x y : Double) : Double := x.add y.neg

def mul : Double → Double → Double
  | .nan, _ | _, .nan => .nan
  | .infinity a, .infinity b => .infinity (a != b)
  | .infinity a, .finite b ub _ | .finite b ub _, .infinity a =>
    if ub = 0 then .nan else .infinity (a != b)
  | .finite a ua _, .finite b ub _ => ofRatio binary64 (a != b) (ua * ub) one

def div : Double → Double → Double
  | .nan, _ | _, .nan => .nan
  | .infinity _, .infinity _ => .nan
  | .infinity a, .finite b _ _ => .infinity (a != b)
  | .finite a _ _, .infinity b => zero (a != b)
  | .finite a ua _, .finite b ub _ =>
    if ub = 0 then (if ua = 0 then .nan else .infinity (a != b))
    else ofRatio binary64 (a != b) (ua * one) ub

def rem : Double → Double → Double
  | .nan, _ | _, .nan => .nan
  | .infinity _, _ => .nan
  | x@(.finite ..), .infinity _ => x
  | .finite a ua _, .finite _ ub _ =>
    if ub = 0 then .nan else ofRatio binary64 a (ua % ub) 1

/-- The place on the number line, in units; an infinity lies where the range ends. -/
def position : Double → Option Int
  | .nan => none
  | .infinity negative => some (signed negative unitsEnd)
  | .finite negative units _ => some (signed negative units)

/-- Whether both numbers have a place and the places are so related. -/
def compare (test : Int → Int → Bool) (x y : Double) : Bool :=
  match x.position, y.position with
  | some p, some q => test p q
  | _, _ => false

def lt : Double → Double → Bool := compare (· < ·)

def le : Double → Double → Bool := compare (· ≤ ·)

def eq : Double → Double → Bool := compare (· == ·)

end ScalarScript.Double
