import Mathlib.Data.List.Induction
import ScalarScript.Proofs.Construction
import ScalarScript.Proofs.Operand

/-! Scripts over registers. Each step fills the next register with a value that it builds, computes,
recategorizes or wraps anew. Whatever a script does, its registers hold values that fit, in the category
that their steps ask for or that of their origin, and only constructors and operators ever fail. -/
namespace ScalarScript

/-! ### Projections -/

inductive Projection where
  | int32 | int64 | bool | single | double | text

/-- The projection of a value, as a native value. -/
def Projection.of : Projection → Value → Except Fault Native
  | int32, v => .ok (.int v.toInt32)
  | int64, v => .ok (.int v.toInt64)
  | bool, v => .ok (.bool v.toBool)
  | single, v => v.toSingle.map .double
  | double, v => v.toDouble.map .double
  | text, v => v.toText.map .string

/-- Every projection of a value that fits is defined, and makes a value of its own. -/
theorem Value.Fits.exists_projection {v : Value} (h : v.Fits) (p : Projection) (category : Option Category) :
    ∃ x s, p.of v = .ok x ∧ s.Fits ∧ ofNative x category = .ok (ofScalar s category) := by
  cases p with
  | int32 =>
    obtain ⟨s, hs, hw⟩ := exists_ofNative_int category (Width.fits_int64 (Width.int32.fits_wrap v.scalar.toInteger))
    exact ⟨_, s, rfl, hs, hw⟩
  | int64 =>
    obtain ⟨s, hs, hw⟩ := exists_ofNative_int category (Width.int64.fits_wrap v.scalar.toInteger)
    exact ⟨_, s, rfl, hs, hw⟩
  | bool => exact ⟨_, .bool v.toBool, rfl, trivial, rfl⟩
  | single =>
    obtain ⟨x, hx⟩ := h.exists_toDouble
    exact ⟨_, .double x.toSingle, by rw [Projection.of, toSingle_of_toDouble hx, Except.map], trivial, rfl⟩
  | double =>
    obtain ⟨x, hx⟩ := h.exists_toDouble
    exact ⟨_, .double x, by rw [Projection.of, hx, Except.map], trivial, rfl⟩
  | text =>
    obtain ⟨s, hs⟩ := h.exists_toText
    exact ⟨_, .string s, by rw [Projection.of, hs, Except.map], trivial, rfl⟩

/-! ### Steps -/

/-- A step names the registers that it reads. -/
inductive Step where
  | new (constructor : Constructor) (x : Source) (category : Option Category)
  | apply (op : Operator) (left right : ℕ)
  | categorize (register : ℕ) (category : Category)
  | rewrap (register : ℕ) (projection : Projection) (category : Option Category)
  /-- Through the constant of a value and back. -/
  | rebuild (register : ℕ)

abbrev Registers := List Value

/-- A register that no step has filled yet reads as the empty value. -/
def Registers.read (rs : Registers) (i : ℕ) : Value := rs.getD i .empty

theorem Registers.fits_read {rs : Registers} (h : ∀ v ∈ rs, v.Fits) (i : ℕ) : (rs.read i).Fits := by
  rw [read, List.getD_eq_getElem?_getD]
  cases hi : rs[i]? with
  | none => exact Value.fits_empty
  | some v => exact h v (List.mem_of_getElem? hi)

namespace Step

def perform (rs : Registers) : Step → Except Fault Value
  | new constructor x category => do constructor.build (← x.toNative) category
  | apply op left right => op.compute (rs.read left) (rs.read right)
  | categorize register category => .ok ((rs.read register).withCategory category)
  | rewrap register projection category => do
    Value.ofNative (← projection.of (rs.read register)) category
  | rebuild register => (Constant.ofValue (rs.read register)).toValue

/-- The category that a step asks for explicitly. -/
def override? : Step → Option Category
  | new constructor x category => (Source.value constructor x category).override?
  | categorize _ category => some category
  | rewrap _ _ category => category
  | apply .. | rebuild _ => none

/-- The failures that a step may come to: a constructor may refuse what it is given, an operator its operands. -/
def MayFail (fault : Fault) : Step → Prop
  | new .. => True
  | apply .. => fault.family = .mismatch ∨ fault.family = .division
  | categorize .. | rewrap .. | rebuild _ => False

/-- What a step over fitting registers comes to. -/
theorem perform_cases {rs : Registers} (h : ∀ v ∈ rs, v.Fits) (step : Step) :
    (∃ v, step.perform rs = .ok v ∧ v.Fits ∧ v.category = step.override?.getD v.origin.category) ∨
      ∃ fault, step.perform rs = .error fault ∧ step.MayFail fault := by
  cases step with
  | new c x category =>
    cases hp : (new c x category).perform rs with
    | error fault => exact .inr ⟨fault, rfl, trivial⟩
    | ok v =>
      obtain ⟨y, hy, hb⟩ := bind_eq_ok_iff.1 hp
      exact .inl ⟨v, rfl, Source.fits_of_toNative (Source.toNative_value hy hb)⟩
  | apply op left right =>
    have ha := Registers.fits_read h left
    have hb := Registers.fits_read h right
    rw [perform, Operator.compute_eq]
    obtain ⟨outcome, ho, hv⟩ | ⟨fault, hf, hm⟩ := op.apply_fits ha hb
    · exact .inl ⟨outcome.toValue, by rw [ho]; rfl, hv.canonical.fits, hv.canonical.category⟩
    · exact .inr ⟨fault, by rw [hf]; rfl, hm⟩
  | categorize register category => exact .inl ⟨_, rfl, Registers.fits_read h register, rfl⟩
  | rewrap register projection category =>
    obtain ⟨x, s, hx, hs, hw⟩ := (Registers.fits_read h register).exists_projection projection category
    exact .inl ⟨.ofScalar s category, by simp only [perform, hx, bind, Except.bind, hw], hs, rfl⟩
  | rebuild register =>
    have hv := Registers.fits_read h register
    exact .inl ⟨_, Constant.toValue_ofValue hv, hv, rfl⟩

end Step

/-! ### Scripts -/

/-- The registers after a script, one for each step. A step that failed leaves the empty value. -/
def registers (script : List Step) : Registers :=
  script.foldl (fun rs step => rs ++ [(step.perform rs).toOption.getD .empty]) []

theorem registers_concat (script : List Step) (step : Step) :
    registers (script ++ [step]) = registers script ++ [(step.perform (registers script)).toOption.getD .empty] := by
  rw [registers, List.foldl_append]
  rfl

theorem fits_registers (script : List Step) : ∀ v ∈ registers script, v.Fits := by
  induction script using List.reverseRecOn with
  | nil => exact List.forall_mem_nil _
  | append_singleton script step ih =>
    rw [registers_concat, List.forall_mem_append, List.forall_mem_singleton]
    refine ⟨ih, ?_⟩
    obtain ⟨v, hv, hf, -⟩ | ⟨fault, hf, -⟩ := step.perform_cases ih
    · rw [hv]
      exact hf
    · rw [hf]
      exact Value.fits_empty

/-- A register has another category than its origin's only where its step asks for that category. -/
theorem forall₂_override? (script : List Step) :
    List.Forall₂ (fun step v => v.category ≠ v.origin.category → step.override? = some v.category) script
      (registers script) := by
  induction script using List.reverseRecOn with
  | nil => exact .nil
  | append_singleton script step ih =>
    rw [registers_concat]
    refine List.rel_append ih (.cons ?_ .nil)
    obtain ⟨v, hv, -, hc⟩ | ⟨fault, hf, -⟩ := step.perform_cases (fits_registers script)
    · rw [hv]
      intro hne
      cases ho : step.override? with
      | none =>
        rw [ho] at hc
        exact absurd hc hne
      | some category =>
        rw [ho] at hc
        exact congrArg some hc.symm
    · rw [hf]
      exact fun hne => absurd rfl hne

/-- Scripts keep to values that fit: every register has all its projections, and its category unless its step
asks for another; and only constructors and operators fail, the latter for mismatches and zero divisors. -/
theorem closed_registers (script : List Step) :
    (∀ v ∈ registers script, v.Fits ∧ ∀ p : Projection, ∃ x, p.of v = .ok x) ∧
      List.Forall₂ (fun step v => v.category ≠ v.origin.category → step.override? = some v.category) script
        (registers script) ∧
      ∀ before step after fault, script = before ++ step :: after →
        step.perform (registers before) = .error fault → step.MayFail fault := by
  refine ⟨fun v hv => ?_, forall₂_override? script, ?_⟩
  · have hf := fits_registers script v hv
    refine ⟨hf, fun p => ?_⟩
    obtain ⟨x, -, hx, -⟩ := hf.exists_projection p none
    exact ⟨x, hx⟩
  · rintro before step after fault - he
    obtain ⟨v, hv, -⟩ | ⟨fault', hf, hm⟩ := step.perform_cases (fits_registers before)
    · cases he.symm.trans hv
    · cases he.symm.trans hf
      exact hm

end ScalarScript
