import ScalarScript.Constant
import ScalarScript.Operator.Apply

/-! Expression trees of constants and binary nodes, and their evaluation. A node carries any symbol
and a leaf may be no constant at all; whoever uses the tree refuses what does not fit. -/
namespace ScalarScript

inductive Expr where
  | constant (c : Constant)
  | binary (symbol : String) (left right : Expr)
  /-- A leaf that is no constant. -/
  | native (x : Native)

namespace Expr

def kind : Expr → Kind
  | constant _ => .constant
  | binary .. => .binary
  | native x => x.kind

/-- A native value as a constant. -/
def ofNative (x : Native) : Except Fault Expr := do
  return constant (.ofValue (← Value.ofNative x none))

/-- An operand as a node: natives become constants. -/
def toNode : Expr → Except Fault Expr
  | native x => ofNative x
  | node => .ok node

/-- A binary node over operands that may be native values, the left one looked at first. -/
def mkBinary (symbol : String) (left right : Expr) : Except Fault Expr := do
  let left ← left.toNode
  let right ← right.toNode
  return binary symbol left right

/-- The constant at a leaf, where a constant is wanted. -/
def toConstant : Expr → Except Fault Constant
  | constant c => .ok c
  | other => .error (.noConstantType other.kind)

/-- Evaluation over the tree: an unknown symbol is refused first, then come the left operand, the
right operand and the operator. -/
def eval : Expr → Except Fault Value
  | constant c => c.toValue
  | binary symbol left right =>
    match Operator.ofSymbol? symbol with
    | none => .error (.unknownOperator symbol)
    | some op => do
      let a ← left.eval
      let b ← right.eval
      return (← op.apply a b).toValue
  | native x => .error (.notEvaluable x.kind)

end Expr
end ScalarScript
