import ScalarScript.Engine
import ScalarScript.Proofs.Bytecode.FoldedLayout
import ScalarScript.Proofs.Bytecode.Listing

/-! Agreement of the engines. On trees whose constants can be written and leave room in the table, compiling
and optimizing succeed, the listing can be printed, and a run comes to what evaluation comes to, so no
engine and no settings can be told from another by the outcome. -/
namespace ScalarScript

/-! ### Listings -/

theorem exists_listing {e : Expr} (hk : Keyed e.constants) : ∃ text, e.layout.listing = .ok text :=
  Chunk.exists_listing (keyed_eraseDups.2 hk) (not_endsCut_assemble Token.whole_of_mem_map_encode 0)

/-! ### Evaluation by the backends -/

/-- The outcome of an action, whatever state it leaves. -/
def Stateful.outcome {σ α : Type} (action : Stateful σ α) (start : σ) : Except Fault α :=
  match action start with
  | .ok a _ => .ok a
  | .error fault _ => .error fault

namespace Backend

open Stateful (outcome)

theorem outcome_tree (settings : Settings) (e : Expr) (printed : String) :
    outcome (eval settings tree e) printed = e.eval := by
  rw [eval, outcome]
  cases e.eval <;> rfl

/-- What is left to do with the final chunk: its listing, if wanted, and its run. -/
def report (settings : Settings) (chunk : Chunk) : Session Value := do
  if settings.lists then
    printLine "=== DISASM ==="
    printLine (← Stateful.lift chunk.listing)
    printLine "=== END DISASM ==="
  Stateful.lift chunk.run

theorem outcome_report (settings : Settings) {chunk : Chunk} (hl : ∃ text, chunk.listing = .ok text)
    (printed : String) : outcome (report settings chunk) printed = chunk.run := by
  obtain ⟨text, ht⟩ := hl
  simp only [report, outcome, bind, ht]
  cases settings.lists <;> cases chunk.run <;> rfl

/-- Evaluation by bytecode comes to the run of the final chunk. -/
theorem outcome_bytecode {settings : Settings} {optimize : Option Bool} {e : Expr} {chunk final : Chunk}
    (hc : e.compile = .ok chunk)
    (hf : (if optimize.getD settings.optimizes then chunk.optimize else .ok chunk) = .ok final)
    (hl : ∃ text, final.listing = .ok text) (printed : String) :
    outcome (eval settings (bytecode optimize) e) printed = final.run := by
  have heval : eval settings (bytecode optimize) e printed = report settings final printed := by
    cases ho : optimize.getD settings.optimizes with
    | true =>
      rw [ho, if_pos rfl] at hf
      simp only [eval, ho, if_true, bind, EStateM.bind, hc, hf, Stateful.lift_ok]
      rfl
    | false =>
      rw [ho] at hf
      cases hf
      simp only [eval, ho, bind, EStateM.bind, hc, Stateful.lift_ok]
      rfl
  rw [← outcome_report settings hl printed, outcome, outcome, heval]

/-- Compilation, optimization where it is wanted, and the run come to what evaluation comes to. -/
theorem outcome_bytecode_eq_eval {e : Expr} (hw : e.WellFormed) (hk : Keyed e.constants)
    (hr : e.table.length + e.binaries ≤ Chunk.maxIndex + 1) (settings : Settings) (optimize : Option Bool)
    (printed : String) : outcome (eval settings (bytecode optimize) e) printed = e.eval := by
  have hl : e.table.length ≤ Chunk.maxIndex + 1 := (Nat.le_add_right _ _).trans hr
  have hc : e.compile = .ok e.layout := Expr.compile_eq_ok_iff.2 ⟨hw, hk, hl, rfl⟩
  obtain ⟨ho, hkf, hlf⟩ := (optimize_layout hw hk hl).resolve_right fun h => Nat.not_lt.2 hr h.1
  cases hopt : optimize.getD settings.optimizes with
  | true =>
    rw [outcome_bytecode hc (by rw [hopt, if_pos rfl, ho]) (exists_listing hkf), Expr.run_layout hw.fold hlf,
      Expr.eval_fold hw]
  | false => rw [outcome_bytecode hc (by rw [hopt]; rfl) (exists_listing hk), Expr.run_layout hw hl]

/-- Every engine, with any choice about optimization and any settings, has the outcome of evaluation on a
tree of short constants, if their keys and its operators leave room in the table. -/
theorem outcome_engine {e : Expr} (hw : e.WellFormed)
    (hs : ∀ c ∈ e.constants, ∀ n ∈ c.value.integers, Native.IsShort n)
    (hr : e.keys.eraseDups.length + e.binaries ≤ 65536) {engine : String} (he : engine = "interp" ∨ engine = "vm")
    (default : String) (optimize : Option Bool) (settings : Settings) (printed : String) :
    ∃ backend, ofEngine (some engine) default optimize = .ok backend ∧
      outcome (eval settings backend e) printed = e.eval := by
  have hk : Keyed e.constants := fun c hc => Constant.hasKey_of_isShort (hs c hc)
  obtain rfl | rfl := he
  · exact ⟨tree, rfl, outcome_tree settings e printed⟩
  · have hroom : e.table.length + e.binaries ≤ Chunk.maxIndex + 1 :=
      (Nat.add_le_add_right (Expr.length_table hk).le _).trans hr
    exact ⟨bytecode optimize, rfl, outcome_bytecode_eq_eval hw hk hroom settings optimize printed⟩

/-- Twice seven, optimized and listed. -/
theorem outcome_engine_of_sum :
    ∃ backend, ofEngine (some "vm") "interp" none = .ok backend ∧
      outcome (eval ⟨some "yes", some "on"⟩ backend
          (.binary "+" (.constant ⟨.int32, .int 7⟩) (.constant ⟨.int32, .int 7⟩))) "" =
        (Expr.binary "+" (.constant ⟨.int32, .int 7⟩) (.constant ⟨.int32, .int 7⟩)).eval := by
  have hshort : Native.IsShort 7 := by
    have h : (7 : ℤ).natAbs < 10 ^ 1 := by decide
    exact h.trans_le (Nat.pow_le_pow_right (by decide) (by decide))
  have hs : ∀ n ∈ (Native.int 7).integers, Native.IsShort n := List.forall_mem_singleton.2 hshort
  obtain ⟨key, hkey⟩ : Constant.HasKey ⟨.int32, .int 7⟩ := Constant.hasKey_of_isShort hs
  refine outcome_engine (.binary .add (.constant _) (.constant _)) ?_ ?_ (.inr rfl) "interp" none _ ""
  · exact List.forall_mem_cons.2 ⟨hs, List.forall_mem_singleton.2 hs⟩
  · simp [Expr.keys, Expr.constants, Expr.binaries, hkey, Except.toOption, List.eraseDups_cons]

end Backend
end ScalarScript
