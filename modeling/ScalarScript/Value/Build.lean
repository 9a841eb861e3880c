import ScalarScript.Native

/-! Construction of values from natives. Each constructor checks the kind and range of what it is
given, and takes an optional category. Truth alone is never refused. -/
namespace ScalarScript

/-- An integer in the literal form of the width. -/
def Width.scalar : Width → Int → Scalar
  | int32, n => .int n
  | int64, n => .long n

namespace Value

/-- An integer that fits the width. One that does not is named in the fault, if its numeral is not
too long. -/
def ofFixed (width : Width) (x : Native) (category : Option Category) : Except Fault Value :=
  match x with
  | .int n =>
    if width.fits n then .ok (ofScalar (width.scalar n) category)
    else do
      let _ ← integerText n
      throw (.outOfRange n width)
  | _ => .error (.integerExpected width x.kind)

def ofInt32 : Native → Option Category → Except Fault Value := ofFixed .int32

def ofInt64 : Native → Option Category → Except Fault Value := ofFixed .int64

def ofTruth (x : Native) (category : Option Category) : Value := ofScalar (.bool x.truth) category

def ofNumber (x : Native) (category : Option Category) : Except Fault Value := do
  let number ← x.toDouble
  return ofScalar (.double number) category

/-- The number rounded to single precision, and held as a double. -/
def ofSingle (x : Native) (category : Option Category) : Except Fault Value := do
  let number ← x.toDouble
  return ofScalar (.double number.toSingle) category

def ofText (x : Native) (category : Option Category) : Except Fault Value :=
  match x with
  | .string s => .ok (ofScalar (.string s) category)
  | _ => .error (.stringExpected x.kind)

/-- The value of a native, by its kind. An integer takes the narrower width that it fits. -/
def ofNative (x : Native) (category : Option Category) : Except Fault Value :=
  match x with
  | .value v => .ok (category.elim v v.withCategory)
  | .none => .ok (category.elim empty empty.withCategory)
  | .bool _ => .ok (ofTruth x category)
  | .int n => if Width.int32.fits n then ofInt32 x category else ofInt64 x category
  | .double _ => ofNumber x category
  | .string _ => ofText x category
  | .bytes _ | .list _ => .error (.notScalar x.kind)

end Value
end ScalarScript
