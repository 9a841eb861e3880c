import ScalarScript.Expr
import ScalarScript.Proofs.Construction
import ScalarScript.Proofs.Operand

/-! Computations at once and put off. A computation over built values can be carried out as it stands, with
each value in the category of its origin, or be written down as a tree and evaluated later. Both have the
same outcome, since a constant loses nothing of a value but its category. -/
namespace ScalarScript

inductive Computation where
  /-- A value that constructors build. -/
  | value (v : Value) (built : v.Built)
  | apply (op : Operator) (left right : Computation)

namespace Computation

/-- Carried out at once, the left operand first. -/
def run : Computation → Except Fault Value
  | value v _ => .ok (v.withCategory v.origin.category)
  | apply op left right => do
    let a ← left.run
    let b ← right.run
    op.compute a b

/-- Written down: values as constants, operators as nodes. -/
def quote : Computation → Expr
  | value v _ => .constant (.ofValue v)
  | apply op left right => .binary op.symbol left.quote right.quote

/-- Evaluation of what was written down has the outcome of the computation itself. -/
theorem eval_quote (c : Computation) : c.quote.eval = c.run := by
  induction c with
  | value v built => exact Constant.toValue_ofValue (Value.built_iff_fits.1 built)
  | apply op left right ihl ihr =>
    have hop : op.compute = fun a b => do return (← op.apply a b).toValue :=
      funext fun a => funext (op.compute_eq a)
    rw [quote, run, Expr.eval, Operator.ofSymbol?_symbol, ihl, ihr, hop]

/-- The integer loses the category that it was built with, so that there is no text to append to. -/
example :
    (apply .add (value ⟨.int 7, .string⟩ ⟨.value .int32 (.scalar (.int 7)) (some .string), rfl⟩)
      (value (.ofString "a") ⟨.value .string (.scalar (.string "a")) none, rfl⟩)).quote.eval =
        .error (.typeMismatch .add .number .string) := rfl

end Computation
end ScalarScript
