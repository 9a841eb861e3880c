/-! The thirteen binary operators and their symbols. -/
namespace ScalarScript

inductive Operator where
  | add | subtract | multiply | divide | remainder
  | greater | less | greaterEqual | lessEqual | equal | notEqual
  | or | and
  deriving DecidableEq

namespace Operator

def all : List Operator :=
  [add, subtract, multiply, divide, remainder,
    greater, less, greaterEqual, lessEqual, equal, notEqual, or, and]

def symbol : Operator → String
  | add => "+"
  | subtract => "-"
  | multiply => "*"
  | divide => "/"
  | remainder => "%"
  | greater => ">"
  | less => "<"
  | greaterEqual => ">="
  | lessEqual => "<="
  | equal => "=="
  | notEqual => "!="
  | or => "|"
  | and => "&"

def ofSymbol? (s : String) : Option Operator := all.find? (·.symbol == s)

@[simp] theorem ofSymbol?_symbol (op : Operator) : ofSymbol? op.symbol = some op := by
  cases op <;> decide

theorem symbol_of_ofSymbol? {s : String} {op : Operator} (h : ofSymbol? s = some op) : op.symbol = s := by
  simpa using List.find?_some h

end Operator
end ScalarScript
