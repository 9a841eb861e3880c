import ScalarScript.Category
import ScalarScript.Number.Double

/-! Values: a scalar in its literal form, and the category that operators dispatch on. -/
namespace ScalarScript

/-- A scalar, tagged by origin. The integers of both widths are unbounded here; the constructors of
values keep them in range. -/
inductive Scalar where
  | none
  | int (n : Int)
  | long (n : Int)
  | bool (b : Bool)
  | double (x : Double)
  | string (s : String)
  deriving DecidableEq

def Scalar.origin : Scalar → Origin
  | none => .none
  | int _ => .int
  | long _ => .long
  | bool _ => .bool
  | double _ => .double
  | string _ => .string

structure Value where
  scalar : Scalar
  category : Category
  deriving DecidableEq

namespace Value

/-- A scalar as a value, in the category of its origin unless another is given. -/
def ofScalar (s : Scalar) (category : Option Category) : Value :=
  ⟨s, category.getD s.origin.category⟩

def empty : Value := ofScalar .none none

def origin (v : Value) : Origin := v.scalar.origin

def withCategory (v : Value) (category : Category) : Value := { v with category }

def ofBool (b : Bool) : Value := ofScalar (.bool b) none

def ofDouble (x : Double) : Value := ofScalar (.double x) none

def ofString (s : String) : Value := ofScalar (.string s) none

end Value
end ScalarScript
