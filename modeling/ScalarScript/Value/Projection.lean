import ScalarScript.Fault
import ScalarScript.Number.Wrap
import ScalarScript.Value.Basic

/-! Projections of scalars to integers, truth, doubles and text. Texts that are no numerals project
to zero, as do the integer parts of NaN and the infinities. Only an integer outside its width can
make a projection fail: beyond the doubles as a number, or too long as a text. -/
namespace ScalarScript

/-- The number that a text writes, blanks aside; zero if it writes none. -/
def doubleOfText (s : String) : Double :=
  (Text.readDouble? (Text.trim s.toList)).getD (.zero false)

/-- The integer that a text writes; failing that, the integer part of its number. -/
def integerOfText (s : String) : Int :=
  (Text.readInteger? (Text.trim s.toList)).getD (doubleOfText s).truncate

/-- The words for the two truth values in any case; other texts are true unless they write zero. -/
def truthOfText (s : String) : Bool :=
  let word := Text.lower (Text.trim s.toList)
  if word == ['t', 'r', 'u', 'e'] then true
  else if word == ['f', 'a', 'l', 's', 'e'] then false
  else !(doubleOfText s).isZero

/-- The numeral of an integer. -/
def integerText (n : Int) : Except Fault String :=
  match Text.integer? n with
  | some s => .ok s
  | none => .error .numeralTooLong

/-- The nearest finite double of an integer. -/
def doubleOfInteger (n : Int) : Except Fault Double := (Double.ofInt? n).elim (.error .overflow) .ok

namespace Scalar

def toDouble : Scalar → Except Fault Double
  | int n | long n => doubleOfInteger n
  | bool b => .ok (.ofBool b)
  | double x => .ok x
  | string s => .ok (doubleOfText s)
  | none => .ok (.zero false)

/-- The integer part, before it is reduced to a width. -/
def toInteger : Scalar → Int
  | int n | long n => n
  | bool b => b.toInt
  | double x => x.truncate
  | string s => integerOfText s
  | none => 0

def toInt32 (s : Scalar) : Int := wrap s.toInteger 32

def toInt64 (s : Scalar) : Int := wrap s.toInteger 64

def toBool : Scalar → Bool
  | bool b => b
  | int n | long n => n != 0
  | double x => !x.isZero
  | string s => truthOfText s
  | none => false

def toSingle (s : Scalar) : Except Fault Double := s.toDouble.map Double.toSingle

def toText : Scalar → Except Fault String
  | string s => .ok s
  | bool b => .ok (if b then "true" else "false")
  | int n | long n => integerText n
  | double x => .ok (Text.display x)
  | none => .ok ""

/-- The literal of the payload. -/
def inspect : Scalar → Except Fault String
  | none => .ok "None"
  | bool b => .ok (if b then "True" else "False")
  | int n | long n => integerText n
  | double x => .ok (Text.literal x)
  | string s => .ok (Text.quote s)

end Scalar

namespace Value

def toDouble (v : Value) : Except Fault Double := v.scalar.toDouble

def toInt32 (v : Value) : Int := v.scalar.toInt32

def toInt64 (v : Value) : Int := v.scalar.toInt64

def toBool (v : Value) : Bool := v.scalar.toBool

def toSingle (v : Value) : Except Fault Double := v.scalar.toSingle

def toText (v : Value) : Except Fault String := v.scalar.toText

/-- Payload, origin and category. -/
def inspect (v : Value) : Except Fault String := do
  let payload ← v.scalar.inspect
  return "Variable(" ++ payload ++ ", " ++ v.origin.name ++ ", " ++ v.category.name ++ ")"

/-! ### What a value refuses -/

def setField (_ : Value) (field : String) : Except Fault Value := .error (.cannotSet field)

def deleteField (_ : Value) (field : String) : Except Fault Value := .error (.cannotDelete field)

/-- Equality fails across categories, so no hash could agree with it. -/
def hash (_ : Value) : Except Fault UInt64 := .error .unhashable

end Value
end ScalarScript
