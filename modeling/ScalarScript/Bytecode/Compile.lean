import ScalarScript.Bytecode.Chunk
import ScalarScript.Expr

/-! Compilation of expressions: operands from left to right, then the operator. A node's symbol is
checked before its operands are compiled. -/
namespace ScalarScript.Expr

/-- Appends code that leaves the value of the expression on the stack. -/
def emit : Expr → Build Unit
  | constant c => Chunk.emitConstant c
  | binary symbol left right =>
    match Operator.ofSymbol? symbol with
    | none => throw (.unknownOperator symbol)
    | some op => do
      left.emit
      right.emit
      let _ ← Chunk.emitOpcode (.binary op)
  | native x => throw (.notCompilable x.kind)

/-- The chunk that computes an expression and halts. -/
def compile (e : Expr) : Except Fault Chunk :=
  Stateful.after (do e.emit; Chunk.emitOpcode .halt) {}

end ScalarScript.Expr
