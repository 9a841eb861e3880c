import ScalarScript.Category
import ScalarScript.Kind
import ScalarScript.Number.Width
import ScalarScript.Operator
import ScalarScript.Text.Numeral
import ScalarScript.Text.Quoted

/-! Causes of failure, their families and their messages. -/
namespace ScalarScript

inductive Fault where
  /-- No operator has the symbol. -/
  | unknownSymbol (symbol : String)
  | typeMismatch (op : Operator) (left right : Category)
  | divisionByZero
  | integerExpected (width : Width) (got : Kind)
  | outOfRange (n : Int) (width : Width)
  | numberExpected (got : Kind)
  /-- Something that is no number, or a number beyond the doubles, by its inspected form. -/
  | notDouble (inspected : String)
  | stringExpected (got : Kind)
  | notScalar (got : Kind)
  /-- A tree holds a node with a symbol that no operator has. -/
  | unknownOperator (symbol : String)
  | notCompilable (got : Kind)
  | notEvaluable (got : Kind)
  | tooManyConstants (index : Nat)
  | missingOperand
  | constantOutOfRange (index : Nat)
  | unknownOpcode (byte : UInt8)
  | stackUnderflow
  | numeralTooLong
  | negativeWidth
  | unknownEngine (name : String)
  | cannotSet (field : String)
  | cannotDelete (field : String)
  | noConstantType (got : Kind)
  | indexOutOfRange
  | overflow
  | unhashable
  deriving DecidableEq

namespace Fault

/-- What a fault is about. The families up to `machine` are the language's own. -/
inductive Family where
  | lookup | mismatch | division | conversion | compilation | machine
  | argument | access | index | overflow | hashing
  deriving DecidableEq

def family : Fault → Family
  | unknownSymbol _ => .lookup
  | typeMismatch .. => .mismatch
  | divisionByZero => .division
  | integerExpected .. | outOfRange .. | numberExpected _ | notDouble _ | stringExpected _ | notScalar _ =>
    .conversion
  | unknownOperator _ | notCompilable _ | notEvaluable _ | tooManyConstants _ => .compilation
  | missingOperand | constantOutOfRange _ | unknownOpcode _ | stackUnderflow => .machine
  | numeralTooLong | negativeWidth | unknownEngine _ => .argument
  | cannotSet _ | cannotDelete _ | noConstantType _ => .access
  | indexOutOfRange => .index
  | overflow => .overflow
  | unhashable => .hashing

/-- Whether the fault is one of the language, which a program may run into, rather than one of the
numbers and texts that it is written with. -/
def inLanguage (fault : Fault) : Bool :=
  match fault.family with
  | .argument | .access | .index | .overflow | .hashing => false
  | _ => true

open Text (quote integerChars)

def message : Fault → String
  | unknownSymbol symbol => "Unknown operator " ++ quote symbol
  | typeMismatch op left right =>
    "Operator " ++ op.symbol ++ " is not defined for " ++ left.name ++ " and " ++ right.name
  | divisionByZero => "Division by zero"
  | integerExpected width got => width.name ++ " requires an int, got " ++ got.name
  | outOfRange n width => String.ofList (integerChars n) ++ " is out of range for " ++ width.name
  | numberExpected got => "double requires a number, got " ++ got.name
  | notDouble inspected => "Cannot convert " ++ inspected ++ " to double"
  | stringExpected got => "string requires a str, got " ++ got.name
  | notScalar got => "Cannot convert " ++ got.name ++ " to a Variable"
  | unknownOperator symbol => "Unknown operator " ++ quote symbol
  | notCompilable got => "Cannot compile " ++ got.name
  | notEvaluable got => "Cannot evaluate " ++ got.name
  | tooManyConstants index => "Too many constants in one chunk (index " ++ toString index ++ ")"
  | missingOperand => "PUSH_CONST is missing its operand"
  | constantOutOfRange index => "Constant index " ++ toString index ++ " out of range"
  | unknownOpcode byte => "Unknown opcode: " ++ toString byte.toNat
  | stackUnderflow => "Stack underflow"
  | numeralTooLong =>
    "Exceeds the limit (4300 digits) for integer string conversion; " ++
      "use sys.set_int_max_str_digits() to increase the limit"
  | negativeWidth => "negative shift count"
  | unknownEngine name => "Unknown engine " ++ quote name
  | cannotSet field => "Variable is immutable; cannot set " ++ quote field
  | cannotDelete field => "Variable is immutable; cannot delete " ++ quote field
  | noConstantType got => "'" ++ got.name ++ "' object has no attribute 'type'"
  | indexOutOfRange => "index out of range"
  | overflow => "integer too large for a double"
  | unhashable => "values have no hash"

end Fault
end ScalarScript
