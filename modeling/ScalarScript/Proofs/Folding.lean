import ScalarScript.Proofs.Bytecode.Compilation
import ScalarScript.Proofs.Bytecode.Optimization

/-! Folding of trees. Bottom up, an operator over two constants becomes the constant of its result, if it
has one. A folded tree evaluates as before, and a tree that has a value folds to a constant. On trees in
postorder folding is a single pass that looks at the two tokens before each operator. -/
namespace ScalarScript

namespace Expr

/-- The node over folded operands. -/
def join (symbol : String) : Expr → Expr → Expr
  | constant a, constant b =>
    match (do Operator.applySymbol symbol (← a.toValue) (← b.toValue) : Except Fault Outcome) with
    | .ok outcome => constant (.ofValue outcome.toValue)
    | .error _ => binary symbol (constant a) (constant b)
  | l, r => binary symbol l r

def fold : Expr → Expr
  | binary symbol l r => join symbol l.fold r.fold
  | leaf => leaf

/-- How many operators a tree has. -/
def binaries : Expr → ℕ
  | binary _ l r => l.binaries + r.binaries + 1
  | _ => 0

theorem join_constants (op : Operator) (a b : Constant) :
    join op.symbol (constant a) (constant b) =
      match op.combine a b with
      | .ok c => constant c
      | .error _ => binary op.symbol (constant a) (constant b) := by
  simp only [join, Operator.applySymbol, Operator.ofSymbol?_symbol, Operator.combine]
  cases a.toValue with
  | error fault => rfl
  | ok x =>
    cases b.toValue with
    | error fault => rfl
    | ok y =>
      simp only [bind, Except.bind]
      cases op.apply x y <;> rfl

/-- Without a constant on both sides a node stays. -/
theorem join_of_binary (symbol : String) {l r : Expr} (h : ∀ a b, l = constant a → r ≠ constant b) :
    join symbol l r = binary symbol l r := by
  cases l with
  | constant a =>
    cases r with
    | constant b => exact absurd rfl (h a b rfl)
    | binary | native => rfl
  | binary | native => rfl

theorem WellFormed.join {op : Operator} {l r : Expr} (hl : l.WellFormed) (hr : r.WellFormed) :
    (Expr.join op.symbol l r).WellFormed := by
  cases hl with
  | constant a =>
    cases hr with
    | constant b =>
      rw [join_constants]
      cases op.combine a b with
      | ok c => exact .constant c
      | error fault => exact .binary op (.constant a) (.constant b)
    | binary op' hl' hr' => exact .binary op (.constant a) (.binary op' hl' hr')
  | binary op' hl' hr' => exact .binary op (.binary op' hl' hr') hr

theorem WellFormed.fold {e : Expr} (h : e.WellFormed) : e.fold.WellFormed := by
  induction h with
  | constant c => exact .constant c
  | binary op _ _ ihl ihr => exact ihl.join ihr

/-! ### Evaluation of folded trees -/

theorem eval_join (op : Operator) (l r : Expr) : (join op.symbol l r).eval = (binary op.symbol l r).eval := by
  by_cases h : ∃ a b, l = constant a ∧ r = constant b
  · obtain ⟨a, b, rfl, rfl⟩ := h
    rw [join_constants]
    cases hc : op.combine a b with
    | error fault => rfl
    | ok c =>
      obtain ⟨-, x, y, outcome, hx, hy, ho, hv⟩ := Operator.combine_ok hc
      rw [eval_binary, eval, eval, eval, hx, hy, hv]
      simp only [bind, Except.bind, ho]
      rfl
  · rw [join_of_binary]
    rintro a b rfl rfl
    exact h ⟨a, b, rfl, rfl⟩

theorem eval_fold {e : Expr} (h : e.WellFormed) : e.fold.eval = e.eval := by
  induction h with
  | constant c => rfl
  | binary op _ _ ihl ihr => rw [fold, eval_join, eval_binary, eval_binary, ihl, ihr]

/-- A tree that has a value folds to a constant of that value. -/
theorem fold_of_eval {e : Expr} (hw : e.WellFormed) {v : Value} (h : e.eval = .ok v) :
    ∃ c, e.fold = constant c ∧ c.toValue = .ok v := by
  induction hw generalizing v with
  | constant c => exact ⟨c, rfl, h⟩
  | @binary op l r _ _ ihl ihr =>
    rw [eval_binary] at h
    obtain ⟨x, hx, h⟩ := bind_eq_ok_iff.1 h
    obtain ⟨y, hy, h⟩ := bind_eq_ok_iff.1 h
    obtain ⟨outcome, ho, h⟩ := bind_eq_ok_iff.1 h
    cases h
    obtain ⟨a, ha, hax⟩ := ihl hx
    obtain ⟨b, hb, hby⟩ := ihr hy
    have hc := Operator.combine_eq_ok_iff.2 ⟨x, y, outcome, hax, hby, ho, rfl⟩
    refine ⟨.ofValue outcome.toValue, by rw [fold, ha, hb, join_constants, hc], ?_⟩
    obtain ⟨-, x', y', outcome', hx', hy', ho', hv⟩ := Operator.combine_ok hc
    cases hax.symm.trans hx'
    cases hby.symm.trans hy'
    cases ho.symm.trans ho'
    exact hv

end Expr

/-! ### Folding of tokens -/

/-- Puts a token after those done so far, the last of which comes first. -/
def foldToken (done : List Token) (t : Token) : List Token :=
  match t, done with
  | .operator op, .operand b :: .operand a :: before =>
    match op.combine a b with
    | .ok c => .operand c :: before
    | .error _ => t :: done
  | _, _ => t :: done

theorem foldToken_operands (op : Operator) (a b : Constant) (before : List Token) :
    foldToken (.operand b :: .operand a :: before) (.operator op) =
      match op.combine a b with
      | .ok c => .operand c :: before
      | .error _ => .operator op :: .operand b :: .operand a :: before := rfl

/-- An operator with another operator before it stays. -/
theorem foldToken_join (op : Operator) {l r : Expr} (hl : l.WellFormed) (hr : r.WellFormed) (done : List Token) :
    foldToken (r.postorder.reverse ++ (l.postorder.reverse ++ done)) (.operator op) =
      (Expr.join op.symbol l r).postorder.reverse ++ done := by
  cases hr with
  | binary op' =>
    rw [Expr.join_of_binary _ (by simp)]
    simp [foldToken]
  | constant b =>
    cases hl with
    | binary op' =>
      rw [Expr.join_of_binary _ (by simp)]
      simp [foldToken, Expr.postorder]
    | constant a =>
      rw [Expr.join_constants]
      simp only [Expr.postorder, List.reverse_singleton, List.cons_append, List.nil_append, foldToken_operands]
      cases op.combine a b with
      | ok c => rfl
      | error fault => simp [Expr.postorder]

/-- Folding the tokens of a tree one by one folds the tree. -/
theorem foldl_foldToken {e : Expr} (h : e.WellFormed) (done : List Token) :
    e.postorder.foldl foldToken done = e.fold.postorder.reverse ++ done := by
  induction h generalizing done with
  | constant c => cases done <;> rfl
  | @binary op l r hl hr ihl ihr =>
    rw [Expr.postorder_binary, List.foldl_append, List.foldl_append, ihl, ihr, List.foldl_cons, List.foldl_nil]
    exact foldToken_join op hl.fold hr.fold done

end ScalarScript
