import Mathlib.Logic.Function.Basic
import ScalarScript.Proofs.Comparison

/-! What operators see of their operands. Two values of one category that agree on the projection which that category
uses are the same to every operator, in either place, whatever their origins. So they are to every script of operator
applications: no later step tells which of the two it was given, neither by a value nor by a fault. -/
namespace ScalarScript

open Operator (common? common?_eq_some)

/-! ### Values that look alike -/

/-- Agreement on all that operators look at: the category, and the one projection that the category uses. -/
structure Value.Alike (a b : Value) : Prop where
  category : a.category = b.category
  number : a.category = .number → a.toDouble = b.toDouble
  text : a.category = .string → a.toText = b.toText
  truth : a.category = .integer → a.toBool = b.toBool

namespace Value.Alike

variable {a a' b b' : Value}

@[refl] theorem refl (a : Value) : a.Alike a := ⟨rfl, fun _ => rfl, fun _ => rfl, fun _ => rfl⟩

theorem common? (ha : a.Alike a') (hb : b.Alike b') : common? a b = common? a' b' := by
  rw [Operator.common?, Operator.common?, ha.category, hb.category]

/-- One step: an operator makes the same of values that look alike. -/
theorem apply (ha : a.Alike a') (hb : b.Alike b') (op : Operator) : op.apply a b = op.apply a' b' := by
  have hmismatch : op.mismatch a b = op.mismatch a' b' := by
    rw [Operator.mismatch, Operator.mismatch, ha.category, hb.category]
  have hc := ha.common? hb
  cases h : Operator.common? a b with
  | none =>
    rw [h] at hc
    cases op <;> simp only [Operator.apply, h, ← hc, hmismatch]
  | some category =>
    obtain ⟨hca, hcb⟩ := common?_eq_some h
    rw [h] at hc
    -- Operands of one category meet in the projection that it uses, and in no other.
    cases category with
    | none => cases op <;> simp only [Operator.apply, h, ← hc, hmismatch]
    | number =>
      cases op <;> simp only [Operator.apply, h, ← hc, hmismatch, Operator.arithmetic, Operator.division,
        Operator.comparison, ha.number hca, hb.number hcb]
    | string =>
      cases op <;> simp only [Operator.apply, h, ← hc, hmismatch, Operator.concatenation, Operator.textComparison,
        ha.text hca, hb.text hcb]
    | integer => cases op <;> simp only [Operator.apply, h, ← hc, hmismatch, ha.truth hca, hb.truth hcb]

theorem compute (ha : a.Alike a') (hb : b.Alike b') (op : Operator) : op.compute a b = op.compute a' b' := by
  rw [Operator.compute_eq, Operator.compute_eq, ha.apply hb]

end Value.Alike

/-! ### Scripts of applications -/

/-- An operator, the registers of its operands and the one that its result goes to. -/
structure Application where
  op : Operator
  left : ℕ
  right : ℕ
  target : ℕ

abbrev RegisterFile := ℕ → Value

namespace Application

variable {file file' : RegisterFile}

def outcome (file : RegisterFile) (step : Application) : Except Fault Value :=
  step.op.compute (file step.left) (file step.right)

/-- The registers after a step, which are those before it if it fails. -/
def next (file : RegisterFile) (step : Application) : RegisterFile :=
  (step.outcome file).toOption.elim file (Function.update file step.target)

theorem outcome_congr (h : ∀ i, (file i).Alike (file' i)) (step : Application) :
    step.outcome file = step.outcome file' :=
  (h step.left).compute (h step.right) step.op

theorem alike_next (h : ∀ i, (file i).Alike (file' i)) (step : Application) (i : ℕ) :
    (step.next file i).Alike (step.next file' i) := by
  rw [next, next, ← outcome_congr h]
  cases (step.outcome file).toOption with
  | none => exact h i
  | some v =>
    rw [Option.elim_some, Option.elim_some, Function.update_apply, Function.update_apply]
    split_ifs
    · rfl
    · exact h i

/-- What the steps of a script come to, one after another. -/
def outcomes : List Application → RegisterFile → List (Except Fault Value)
  | [], _ => []
  | step :: rest, file => step.outcome file :: outcomes rest (step.next file)

/-- Registers that look alike stay so from step to step, and every step comes to the same. -/
theorem outcomes_congr (script : List Application) (h : ∀ i, (file i).Alike (file' i)) :
    outcomes script file = outcomes script file' := by
  induction script generalizing file file' with
  | nil => rfl
  | cons step rest ih => rw [outcomes, outcomes, outcome_congr h, ih (alike_next h step)]

/-- Origins are not seen: a register given another value that looks alike changes the outcome of no step. -/
theorem outcomes_update_of_alike (script : List Application) (file : RegisterFile) (i : ℕ) {v : Value}
    (h : v.Alike (file i)) : outcomes script (Function.update file i v) = outcomes script file := by
  refine outcomes_congr script fun j => ?_
  rw [Function.update_apply]
  split_ifs with hj
  · exact hj ▸ h
  · rfl

/-- A text that is taken for a number, in the place of an integer: added, compared with the sum, and refused by `or`. -/
theorem outcomes_update_of_alike_numeral :
    (⟨.string " 3.0 ", .number⟩ : Value).Alike ⟨.int 3, .number⟩ ∧
      outcomes [⟨.add, 0, 1, 2⟩, ⟨.less, 1, 2, 3⟩, ⟨.or, 3, 0, 4⟩]
          (Function.update (fun _ => ⟨.int 3, .number⟩) 1 ⟨.string " 3.0 ", .number⟩) =
        [.ok (.ofDouble (.ofInt 6)), .ok (.ofBool true), .error (.typeMismatch .or .number .number)] := by
  have h : (⟨.string " 3.0 ", .number⟩ : Value).Alike ⟨.int 3, .number⟩ :=
    ⟨rfl, fun _ => by decide +kernel, nofun, nofun⟩
  exact ⟨h, (outcomes_update_of_alike _ (fun _ => ⟨.int 3, .number⟩) 1 h).trans (by decide +kernel)⟩

end Application
end ScalarScript
