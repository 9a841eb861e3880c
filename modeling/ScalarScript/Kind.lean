/-! The kinds of things that can be met where a scalar, a number or a constant is wanted, as messages
name them. -/
namespace ScalarScript

inductive Kind where
  | none | bool | int | double | string | bytes | list | value | constant | binary
  deriving DecidableEq

def Kind.name : Kind → String
  | none => "NoneType"
  | bool => "bool"
  | int => "int"
  | double => "float"
  | string => "str"
  | bytes => "bytes"
  | list => "list"
  | value => "Variable"
  | constant => "ConstantNode"
  | binary => "BinaryNode"

end ScalarScript
