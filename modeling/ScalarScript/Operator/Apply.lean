import ScalarScript.Number.Arithmetic
import ScalarScript.Value.Build

/-! Application of the operators. Two numbers meet as doubles and two strings as texts; two values of
category `integer` meet as truth values under `or` and `and`. Arithmetic gives a value, comparison
and logic give a truth value, and every other pair of categories is a mismatch. -/
namespace ScalarScript

inductive Outcome where
  | value (v : Value)
  | truth (b : Bool)
  deriving DecidableEq

/-- Every outcome as a value. -/
def Outcome.toValue : Outcome → Value
  | value v => v
  | truth b => Value.ofBool b

namespace Operator

/-- The category that both operands have. -/
def common? (a b : Value) : Option Category := if a.category = b.category then some a.category else none

def arithmetic (f : Double → Double → Double) (a b : Value) : Except Fault Outcome := do
  let x ← a.toDouble
  let y ← b.toDouble
  return .value (.ofDouble (f x y))

/-- The divisor is looked at first. -/
def division (a b : Value) : Except Fault Outcome := do
  let y ← b.toDouble
  if y.isZero then throw .divisionByZero
  let x ← a.toDouble
  return .value (.ofDouble (x.div y))

def concatenation (a b : Value) : Except Fault Outcome := do
  let x ← a.toText
  let y ← b.toText
  return .value (.ofString (x ++ y))

def comparison (test : Double → Double → Bool) (a b : Value) : Except Fault Outcome := do
  let x ← a.toDouble
  let y ← b.toDouble
  return .truth (test x y)

/-- Texts are ordered by code points. -/
def textComparison (test : String → String → Bool) (a b : Value) : Except Fault Outcome := do
  let x ← a.toText
  let y ← b.toText
  return .truth (test x y)

/-- Inequality is the denial of equality, down to the symbol in a mismatch. -/
def mismatch (op : Operator) (a b : Value) : Except Fault Outcome :=
  .error (.typeMismatch (if op = notEqual then equal else op) a.category b.category)

def apply (op : Operator) (a b : Value) : Except Fault Outcome :=
  match op, common? a b with
  | add, some .number => arithmetic Double.add a b
  | add, some .string => concatenation a b
  | subtract, some .number => arithmetic Double.sub a b
  | multiply, some .number => arithmetic Double.mul a b
  | divide, some .number => division a b
  | remainder, some .number => arithmetic Double.rem a b
  | greater, some .number => comparison (fun x y => y.lt x) a b
  | greater, some .string => textComparison (fun x y => y < x) a b
  | less, some .number => comparison Double.lt a b
  | less, some .string => textComparison (fun x y => x < y) a b
  | greaterEqual, some .number => comparison (fun x y => y.le x) a b
  | greaterEqual, some .string => textComparison (fun x y => !(x < y)) a b
  | lessEqual, some .number => comparison Double.le a b
  | lessEqual, some .string => textComparison (fun x y => !(y < x)) a b
  | equal, some .number => comparison Double.eq a b
  | equal, some .string => textComparison (· == ·) a b
  | notEqual, some .number => comparison (fun x y => !x.eq y) a b
  | notEqual, some .string => textComparison (· != ·) a b
  | or, some .integer => .ok (.truth (a.toBool || b.toBool))
  | and, some .integer => .ok (.truth (a.toBool && b.toBool))
  | op, _ => mismatch op a b

/-- Applies the operator of a symbol. -/
def applySymbol (symbol : String) (a b : Value) : Except Fault Outcome :=
  match ofSymbol? symbol with
  | some op => op.apply a b
  | none => .error (.unknownSymbol symbol)

/-- Applies an operator to a value and a native operand, which comes first if `reflected`. There is
no answer when the native is nothing or has no value. -/
def applyNative (op : Operator) (v : Value) (other : Native) (reflected : Bool) :
    Except Fault (Option Outcome) :=
  match other, Value.ofNative other none with
  | .none, _ => .ok none
  | _, .ok w => (if reflected then op.apply w v else op.apply v w).map some
  | _, .error fault => if fault.family = .conversion then .ok none else .error fault

end Operator
end ScalarScript
