import ScalarScript.Proofs.Construction
import ScalarScript.Proofs.Number.Format

/-! Values of single precision. A number is rounded before it is held, or when it is projected: both ways it comes out
the same. What has been rounded once is a number of single precision, and stays as it is however often it is projected
and wrapped anew. -/
namespace ScalarScript

open Double (RoundsTo)

/-- Constructors that take a double as it is, or rounded. -/
def Constructor.numeric : List Constructor := [single, double, native]

namespace Value

open Constructor (numeric)

variable {v : Value} {x y : Double}

/-! ### Wrapping anew -/

/-- The single-precision projection of a value, made a value by a constructor. -/
def rewrapSingle (v : Value) (c : Constructor) (category : Option Category) : Except Fault Value := do
  c.build (.double (← v.toSingle)) category

/-- A value that holds a number of single precision. -/
def HoldsSingle (v : Value) (y : Double) : Prop := v.scalar = .double y ∧ y.toSingle = y

theorem holdsSingle_toSingle (x : Double) (category : Option Category) :
    (ofScalar (.double x.toSingle) category).HoldsSingle x.toSingle := ⟨rfl, x.toSingle_toSingle⟩

theorem HoldsSingle.toDouble (h : v.HoldsSingle y) : v.toDouble = .ok y := by
  rw [Value.toDouble, h.1, Scalar.toDouble]

theorem HoldsSingle.toSingle (h : v.HoldsSingle y) : v.toSingle = .ok y := by
  rw [toSingle_of_toDouble h.toDouble, h.2]

/-- One more wrapping holds the same number. -/
theorem HoldsSingle.rewrapSingle (h : v.HoldsSingle y) {c : Constructor} (hc : c ∈ numeric)
    (category : Option Category) :
    ∃ w, v.rewrapSingle c category = .ok w ∧ w.HoldsSingle y := by
  have hbuild : c.build (.double y) category = .ok (ofScalar (.double y) category) := by
    simp only [numeric, List.mem_cons, List.not_mem_nil, or_false] at hc
    rcases hc with rfl | rfl | rfl
    · exact congrArg (fun z => Except.ok (ofScalar (.double z) category)) h.2
    · rfl
    · rfl
  exact ⟨_, by rw [Value.rewrapSingle, h.toSingle]; exact hbuild, rfl, h.2⟩

/-- So does any number of wrappings. -/
theorem HoldsSingle.foldlM_rewrapSingle (wrappings : List (Constructor × Option Category))
    (hc : ∀ wrapping ∈ wrappings, wrapping.1 ∈ numeric) (h : v.HoldsSingle y) :
    ∃ w, wrappings.foldlM (fun v wrapping => v.rewrapSingle wrapping.1 wrapping.2) v = .ok w ∧ w.HoldsSingle y := by
  induction wrappings generalizing v with
  | nil => exact ⟨v, rfl, h⟩
  | cons wrapping rest ih =>
    obtain ⟨hfirst, hrest⟩ := List.forall_mem_cons.1 hc
    obtain ⟨u, hu, hs⟩ := h.rewrapSingle hfirst wrapping.2
    obtain ⟨w, hw, ht⟩ := ih hrest hs
    exact ⟨w, by rw [List.foldlM_cons, hu]; exact hw, ht⟩

/-! ### Rounding and construction -/

/-- Rounding to single precision is rounding to nearest, keeps the order, and a second time changes nothing. A value
built with rounding has for its double and for its single one and the same number, the single of the value that is
built without rounding, and any number of wrappings keep it. -/
theorem single_precision_commutes :
    (∀ x : Double, x.toSingle.InFormat binary32 ∧ RoundsTo binary32 x x.toSingle ∧ x.toSingle.toSingle = x.toSingle) ∧
      (∀ x y : Double, x.le y = true → x.toSingle.le y.toSingle = true) ∧
      ∀ (x : Native) (category : Option Category) (v : Value), ofSingle x category = .ok v →
        ∃ w y, ofNumber x none = .ok w ∧ v.toDouble = .ok y ∧ v.toSingle = .ok y ∧ w.toSingle = .ok y ∧
          ∀ wrappings : List (Constructor × Option Category), (∀ wrapping ∈ wrappings, wrapping.1 ∈ numeric) →
            ∃ u, wrappings.foldlM (fun v wrapping => v.rewrapSingle wrapping.1 wrapping.2) v = .ok u ∧
              u.scalar = v.scalar ∧ u.toSingle = .ok y := by
  refine ⟨fun x => ⟨x.roundsTo_toSingle.inFormat, x.roundsTo_toSingle, x.toSingle_toSingle⟩,
    fun x y => Double.toSingle_le_toSingle, ?_⟩
  intro x category v hv
  obtain ⟨z, hz, rfl⟩ := ofSingle_eq_ok_iff.1 hv
  have hs := holdsSingle_toSingle z category
  have hw : ofNumber x none = .ok (ofScalar (.double z) none) := by rw [ofNumber, hz]; rfl
  refine ⟨_, z.toSingle, hw, hs.toDouble, hs.toSingle, toSingle_of_toDouble rfl, fun wrappings hc => ?_⟩
  obtain ⟨u, hu, hus⟩ := hs.foldlM_rewrapSingle wrappings hc
  exact ⟨u, hu, hus.1, hus.toSingle⟩

/-- Of a number between two of single precision the one with the even significand is kept. -/
theorem single_precision_commutes_of_midpoint :
    ∃ v w, ofSingle (.int 16777217) (some .string) = .ok v ∧ ofNumber (.int 16777217) none = .ok w ∧
      v.toDouble = .ok (.ofInt 16777216) ∧ w.toSingle = .ok (.ofInt 16777216) := by
  have hv : ofSingle (.int 16777217) (some .string) = .ok (ofScalar (.double (.ofInt 16777216)) (some .string)) := by
    decide +kernel
  obtain ⟨w, y, hw, hd, -, hs, -⟩ := single_precision_commutes.2.2 _ _ _ hv
  obtain rfl : .ofInt 16777216 = y := Except.ok.inj hd
  exact ⟨_, w, hv, hw, hd, hs⟩

end Value
end ScalarScript
