import ScalarScript.Number.Decimal
import ScalarScript.Text.Digit
import ScalarScript.Text.Blank

/-! Numerals. Integers are written in decimal digits; doubles in their shortest digits, in positional
form for decimal exponents from -4 to 15 and in scientific form beyond. Readers take the digits of
any script and single underscores between digits. An integer numeral has at most 4300 digits. -/
namespace ScalarScript.Text

-- Powers are the ones of the core library, whatever else is imported.
attribute [local instance (high)] instPowNat

/-! ### Writing -/

def integerChars (n : Int) : List Char :=
  if n < 0 then '-' :: Nat.toDigits 10 n.natAbs else Nat.toDigits 10 n.natAbs

def maxDigits : Nat := 4300

/-- The numeral of an integer, unless it is too long. -/
def integer? (n : Int) : Option String :=
  if n.natAbs < 10 ^ maxDigits then some (String.ofList (integerChars n)) else none

/-- Digits with the point after the first `point` of them, or with zeros up to the point. -/
def positional (digits : List Char) (point : Int) : List Char :=
  if point ≤ 0 then '0' :: '.' :: List.replicate (-point).toNat '0' ++ digits
  else if digits.length ≤ point then
    digits ++ List.replicate (point - digits.length).toNat '0' ++ ['.', '0']
  else digits.take point.toNat ++ '.' :: digits.drop point.toNat

/-- One digit before the point, and an exponent of at least two digits with its sign. -/
def scientific (digits : List Char) (exponent : Int) : List Char :=
  let fraction := digits.drop 1
  let power := Nat.toDigits 10 exponent.natAbs
  digits.take 1 ++ (if fraction.isEmpty then [] else '.' :: fraction) ++
    'e' :: (if exponent < 0 then '-' else '+') :: List.replicate (2 - power.length) '0' ++ power

def decimalChars (d : Decimal) : List Char :=
  let all := Nat.toDigits 10 d.digits
  let point := all.length + d.exponent
  let digits := (all.reverse.dropWhile (· == '0')).reverse
  if -4 < point && point ≤ 16 then positional digits point else scientific digits (point - 1)

def signChars (negative : Bool) : List Char := if negative then ['-'] else []

/-- The literal of a double: a point or an exponent always tells it from an integer. -/
def literal : Double → String
  | .nan => "nan"
  | .infinity negative => String.ofList (signChars negative) ++ "inf"
  | .finite negative units _ =>
    let magnitude := if units = 0 then ['0', '.', '0'] else decimalChars (Decimal.shortest units)
    String.ofList (signChars negative ++ magnitude)

/-- The display form of a double: integral numbers below `10^16` as integers, zero without a sign. -/
def display : Double → String
  | .nan => "NaN"
  | .infinity negative => String.ofList (signChars negative) ++ "Infinity"
  | x@(.finite _ units _) =>
    if x.isIntegral && units < 10 ^ (16 : Nat) * Double.one then String.ofList (integerChars x.truncate)
    else literal x

/-! ### Reading -/

/-- Decimal digits of any script become ASCII digits; other characters stay. -/
def toAsciiDigit (c : Char) : Char :=
  match digit? c with
  | some d => Char.ofNat (48 + d)
  | none => c

/-- Drops underscores, each of which must stand between two digits; `afterDigit` tells whether the
character before was one. -/
def dropSeparators? (afterDigit : Bool) : List Char → Option (List Char)
  | [] => some []
  | '_' :: rest =>
    if afterDigit && (rest.head?.any Char.isDigit) then dropSeparators? false rest else none
  | c :: rest => (dropSeparators? c.isDigit rest).map (c :: ·)

/-- The characters of a numeral in plain form: ASCII digits and no separators. -/
def plain? (cs : List Char) : Option (List Char) := dropSeparators? false (cs.map toAsciiDigit)

/-- Takes one sign off, and tells whether it is a minus. -/
def splitSign : List Char → Bool × List Char
  | '-' :: rest => (true, rest)
  | '+' :: rest => (false, rest)
  | cs => (false, cs)

/-- The number that ASCII digits write; there is at least one. -/
def natural? (cs : List Char) : Option Nat :=
  if !cs.isEmpty && cs.all Char.isDigit then some (Nat.ofDigitChars 10 cs 0) else none

def readInteger? (cs : List Char) : Option Int := do
  let (negative, digits) := splitSign (← plain? cs)
  if maxDigits < digits.length then none
  else (natural? digits).map fun n => if negative then -(n : Int) else n

/-- The power of ten after a mantissa: nothing at all, or a mark and a signed numeral. -/
def readExponent? : List Char → Option Int
  | [] => some 0
  | mark :: rest =>
    if mark == 'e' || mark == 'E' then
      let (negative, digits) := splitSign rest
      (natural? digits).map fun n => if negative then -(n : Int) else n
    else none

/-- Digits around an optional point, then an optional exponent. -/
def readDecimal? (cs : List Char) : Option Decimal := do
  let whole := cs.takeWhile Char.isDigit
  let rest := cs.dropWhile Char.isDigit
  let (fraction, rest) := match rest with
    | '.' :: after => (after.takeWhile Char.isDigit, after.dropWhile Char.isDigit)
    | _ => ([], rest)
  let digits ← natural? (whole ++ fraction)
  let exponent ← readExponent? rest
  some ⟨digits, exponent - fraction.length⟩

def readDouble? (cs : List Char) : Option Double := do
  let (negative, body) := splitSign (← plain? cs)
  let word := lower body
  if word == ['n', 'a', 'n'] then some .nan
  else if word == ['i', 'n', 'f'] || word == ['i', 'n', 'f', 'i', 'n', 'i', 't', 'y'] then
    some (.infinity negative)
  else (readDecimal? body).map (Double.ofDecimal negative)

end ScalarScript.Text
