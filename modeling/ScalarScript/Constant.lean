import ScalarScript.Value.Build

/-! Constants: the leaves of expressions and the entries of constant tables. A constant is made from a
value by its origin, and stands for the value that its tag's constructor builds. -/
namespace ScalarScript

/-- The types of constants. -/
inductive Tag where
  | int32 | int64 | bool | double | string
  deriving DecidableEq

namespace Tag

def all : List Tag := [int32, int64, bool, double, string]

def name : Tag → String
  | int32 => "INT32"
  | int64 => "INT64"
  | bool => "BOOL"
  | double => "DOUBLE"
  | string => "STRING"

def ofName? (s : String) : Option Tag := all.find? (·.name == s)

/-- The kind of native value that suits the tag. -/
def kind : Tag → Kind
  | int32 | int64 => .int
  | bool => .bool
  | double => .double
  | string => .string

end Tag

/-- A native value under a tag, which it need not suit. -/
structure Constant where
  tag : Tag
  value : Native

namespace Constant

/-- A constant without a value stands for the empty value, under any tag. -/
def isNull (c : Constant) : Bool :=
  match c.value with
  | .none => true
  | _ => false

def inspect (c : Constant) : Except Fault String := do
  let value ← c.value.inspect
  return "Constant(" ++ value ++ ": " ++ c.tag.name ++ ")"

/-- What tells constants apart in a table: the tag and the literal. -/
def key (c : Constant) : Except Fault (Tag × String) := do
  return (c.tag, ← c.value.inspect)

/-- The constant of a value, by its origin; without a scalar it is a string constant with no value. -/
def ofValue (v : Value) : Constant :=
  match v.scalar with
  | .int _ => ⟨.int32, .int v.toInt32⟩
  | .long _ => ⟨.int64, .int v.toInt64⟩
  | .bool b => ⟨.bool, .bool b⟩
  | .double x => ⟨.double, .double x⟩
  | .string s => ⟨.string, .string s⟩
  | .none => ⟨.string, .none⟩

/-- The value that a constant stands for, built by the constructor of its tag. -/
def toValue (c : Constant) : Except Fault Value :=
  match c.value, c.tag with
  | .none, _ => .ok .empty
  | x, .int32 => Value.ofInt32 x none
  | x, .int64 => Value.ofInt64 x none
  | x, .bool => .ok (Value.ofTruth x none)
  | x, .double => Value.ofNumber x none
  | x, .string => Value.ofText x none

end Constant

end ScalarScript
