/-! What operators see of a value (its category) and the literal form a value was built from
(its origin). Each origin has a default category; a value may carry another one. -/
namespace ScalarScript

inductive Category where
  | none | number | string | integer
  deriving DecidableEq

namespace Category

def all : List Category := [none, number, string, integer]

def name : Category → String
  | none => "NONE"
  | number => "NUMBER"
  | string => "STRING"
  | integer => "INTEGER"

def ofName? (s : String) : Option Category := all.find? (·.name == s)

end Category

inductive Origin where
  | none | int | long | bool | double | string
  deriving DecidableEq

namespace Origin

def all : List Origin := [none, int, long, bool, double, string]

def name : Origin → String
  | none => "NONE"
  | int => "INT"
  | long => "LONG"
  | bool => "BOOL"
  | double => "DOUBLE"
  | string => "STRING"

def ofName? (s : String) : Option Origin := all.find? (·.name == s)

theorem ofName?_name (o : Origin) : ofName? o.name = some o := by cases o <;> decide

/-- The category of a value that carries no other. No origin defaults to `Category.integer`. -/
def category : Origin → Category
  | none => .none
  | string => .string
  | int | long | bool | double => .number

end Origin
end ScalarScript
