import ScalarScript.Proofs.Bytecode.FoldedLayout
import ScalarScript.Proofs.Bytecode.Refusal

/-! Values met in evaluation. Nothing is skipped: where a tree has a value, so has each of its nodes. Such a
value is in the category of its origin, which is never the one that disjunction and conjunction ask for, so
that no tree with one of these has a value, however it is evaluated. -/
namespace ScalarScript

theorem Origin.category_ne_integer (o : Origin) : o.category ≠ .integer := by
  cases o <;> simp [category]

theorem Value.Canonical.category_ne_integer {v : Value} (h : v.Canonical) : v.category ≠ .integer :=
  h.category ▸ v.origin.category_ne_integer

theorem Value.Plain.origin_cases {v : Value} (h : v.Plain) :
    v.origin = .double ∨ v.origin = .bool ∨ v.origin = .string := by
  cases h with
  | double x => exact .inl rfl
  | bool b => exact .inr (.inl rfl)
  | string s => exact .inr (.inr rfl)

/-- Disjunction and conjunction have no other operands than those of category `integer`. -/
theorem Operator.apply_logic {op : Operator} (hop : op = or ∨ op = and) {a b : Value} (ha : a.category ≠ .integer) :
    op.apply a b = mismatch op a b := by
  have hc : common? a b ≠ some .integer := by
    unfold common?
    split_ifs
    · simpa using ha
    · simp
  obtain rfl | rfl := hop <;> unfold apply <;> split <;> simp_all

namespace Expr

/-! ### Nodes -/

theorem eval_binary_eq_ok {symbol : String} {l r : Expr} {v : Value} (h : (binary symbol l r).eval = .ok v) :
    ∃ op a b outcome, Operator.ofSymbol? symbol = some op ∧ l.eval = .ok a ∧ r.eval = .ok b ∧
      op.apply a b = .ok outcome ∧ v = outcome.toValue := by
  rw [eval] at h
  cases ho : Operator.ofSymbol? symbol with
  | none =>
    rw [ho] at h
    cases h
  | some op =>
    rw [ho] at h
    obtain ⟨a, ha, h⟩ := bind_eq_ok_iff.1 h
    obtain ⟨b, hb, h⟩ := bind_eq_ok_iff.1 h
    obtain ⟨outcome, hv, h⟩ := bind_eq_ok_iff.1 h
    cases h
    exact ⟨op, a, b, outcome, rfl, ha, hb, hv, rfl⟩

/-- Evaluation gives values in the category of their origin, and operators plain ones at that. -/
theorem canonical_eval {e : Expr} {v : Value} (h : e.eval = .ok v) :
    v.Canonical ∧ ∀ symbol l r, e = binary symbol l r → v.Plain := by
  induction e generalizing v with
  | constant c => exact ⟨Constant.canonical_toValue h, by simp⟩
  | native x => cases h
  | binary symbol l r ihl ihr =>
    obtain ⟨op, a, b, outcome, -, ha, hb, ho, rfl⟩ := eval_binary_eq_ok h
    have hplain : outcome.toValue.Plain := by
      obtain ⟨outcome', ho', hp⟩ | ⟨fault, hf, -⟩ := op.apply_fits (ihl ha).1.fits (ihr hb).1.fits
      · cases ho.symm.trans ho'
        exact hp
      · cases ho.symm.trans hf
    exact ⟨hplain.canonical, fun _ _ _ _ => hplain⟩

/-- Evaluation comes to every node. -/
theorem exists_eval_of_mem_nodes {e : Expr} {v : Value} (h : e.eval = .ok v) :
    ∀ node ∈ e.nodes, ∃ w, node.tree.eval = .ok w := by
  induction e generalizing v with
  | constant c => exact List.forall_mem_singleton.2 ⟨v, h⟩
  | native x => cases h
  | binary symbol l r ihl ihr =>
    obtain ⟨op, a, b, outcome, -, ha, hb, -⟩ := eval_binary_eq_ok h
    rw [nodes, List.forall_mem_cons, List.forall_mem_append, List.forall_mem_map, List.forall_mem_map]
    exact ⟨⟨v, h⟩, ihl ha, ihr hb⟩

/-- Some node is a disjunction or a conjunction. -/
def HasLogic (e : Expr) : Prop :=
  ∃ node ∈ e.nodes, ∃ (op : Operator) (l r : Expr), (op = .or ∨ op = .and) ∧ node.tree = binary op.symbol l r

theorem HasLogic.eval_ne_ok {e : Expr} (h : e.HasLogic) (v : Value) : e.eval ≠ .ok v := by
  intro he
  obtain ⟨node, hn, op, l, r, hop, htree⟩ := h
  obtain ⟨w, hw⟩ := exists_eval_of_mem_nodes he node hn
  rw [htree] at hw
  obtain ⟨op', a, b, outcome, ho', ha, -, happly, -⟩ := eval_binary_eq_ok hw
  obtain rfl : op = op' := Option.some.inj ((Operator.ofSymbol?_symbol op).symm.trans ho')
  rw [Operator.apply_logic hop (canonical_eval ha).1.category_ne_integer] at happly
  cases happly

/-- No tree with a disjunction or a conjunction in it has a value, on any engine. And where evaluation gives a
value it gives one at every node, in the category of its origin but never `integer`: a number, a truth value
or a text wherever an operator stands. -/
theorem logic_never_evaluates :
    (∀ e : Expr, e.HasLogic → ∀ v, e.eval ≠ .ok v ∧ (do (← e.compile).run) ≠ .ok v ∧
      (do (← (← e.compile).optimize).run) ≠ .ok v) ∧
      ∀ (e : Expr) (v : Value), e.eval = .ok v → ∀ node ∈ e.nodes, ∃ w, node.tree.eval = .ok w ∧
        w.category = w.origin.category ∧ w.category ≠ .integer ∧
          ∀ symbol l r, node.tree = binary symbol l r → w.origin = .double ∨ w.origin = .bool ∨ w.origin = .string := by
  refine ⟨fun e h v => ⟨h.eval_ne_ok v, fun hrun => ?_, fun hrun => ?_⟩, fun e v h node hn => ?_⟩
  · obtain ⟨chunk, hc, hv⟩ := bind_eq_ok_iff.1 hrun
    exact h.eval_ne_ok v (run_of_compile hc ▸ hv)
  · obtain ⟨chunk, hc, hrun⟩ := bind_eq_ok_iff.1 hrun
    obtain ⟨optimized, ho, hv⟩ := bind_eq_ok_iff.1 hrun
    exact h.eval_ne_ok v (run_of_optimize hc ho ▸ hv)
  · obtain ⟨w, hw⟩ := exists_eval_of_mem_nodes h node hn
    obtain ⟨hcanonical, hplain⟩ := canonical_eval hw
    exact ⟨w, hw, hcanonical.category, hcanonical.category_ne_integer, fun symbol l r ht =>
      (hplain symbol l r ht).origin_cases⟩

/-- A constant may hold a value of category `integer`, but what it stands for is a truth value, and a
disjunction of two such fails. -/
theorem logic_never_evaluates_of_override :
    (∀ v, (binary "|" (constant ⟨.bool, .value ⟨.int 1, .integer⟩⟩) (constant ⟨.bool, .bool true⟩)).eval ≠ .ok v) ∧
      ∃ w, (constant ⟨.bool, .value ⟨.int 1, .integer⟩⟩).eval = .ok w ∧ w.category = w.origin.category := by
  obtain ⟨hfails, hvalues⟩ := logic_never_evaluates
  refine ⟨fun v => (hfails _ ⟨⟨[], _⟩, List.mem_cons_self, .or, _, _, .inl rfl, rfl⟩ v).1, ?_⟩
  obtain ⟨w, hw, hcategory, -⟩ := hvalues (constant ⟨.bool, .value ⟨.int 1, .integer⟩⟩) _ rfl _ List.mem_cons_self
  exact ⟨w, hw, hcategory⟩

end Expr
end ScalarScript
