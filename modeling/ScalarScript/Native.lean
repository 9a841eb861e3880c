import ScalarScript.Value.Projection

/-! Native values: the untyped data that values are built from and constants hold, with their
literals, their truth and their numbers. -/
namespace ScalarScript

inductive Native where
  | none
  | bool (b : Bool)
  | int (n : Int)
  | double (x : Double)
  | string (s : String)
  | bytes (bs : List UInt8)
  | list (items : List Native)
  | value (v : Value)

namespace Native

def kind : Native → Kind
  | none => .none
  | bool _ => .bool
  | int _ => .int
  | double _ => .double
  | string _ => .string
  | bytes _ => .bytes
  | list _ => .list
  | value _ => .value

/-- Nothing, zeros and empty texts, bytes and lists are false; a value decides for itself. -/
def truth : Native → Bool
  | none => false
  | bool b => b
  | int n => n != 0
  | double x => !x.isZero
  | string s => !s.isEmpty
  | bytes bs => !bs.isEmpty
  | list items => !items.isEmpty
  | value v => v.toBool

mutual

/-- The literal of a native value. -/
def inspect : Native → Except Fault String
  | none => .ok "None"
  | bool b => .ok (if b then "True" else "False")
  | int n => integerText n
  | double x => .ok (Text.literal x)
  | string s => .ok (Text.quote s)
  | bytes bs => .ok (Text.quoteBytes bs)
  | list items => do
    let parts ← inspectAll items
    return "[" ++ ", ".intercalate parts ++ "]"
  | value v => v.inspect

def inspectAll : List Native → Except Fault (List String)
  | [] => .ok []
  | item :: rest => do
    let first ← inspect item
    return first :: (← inspectAll rest)

end

/-- The scalar's payload on its own. -/
def ofScalar : Scalar → Native
  | .none => none
  | .int n | .long n => int n
  | .bool b => bool b
  | .double x => double x
  | .string s => string s

/-- The number that a native value is or projects to. An integer beyond the doubles has none. -/
def double? : Native → Option Double
  | double x => some x
  | bool b => some (.ofBool b)
  | int n => Double.ofInt? n
  | value v => v.toDouble.toOption
  | none | string _ | bytes _ | list _ => .none

/-- Refuses texts and bytes by their kind, and whatever else is no number by its literal. -/
def toDouble (x : Native) : Except Fault Double :=
  match x.double?, x with
  | some number, _ => .ok number
  | .none, string _ | .none, bytes _ => .error (.numberExpected x.kind)
  | .none, _ => do throw (.notDouble (← x.inspect))

end Native
end ScalarScript
