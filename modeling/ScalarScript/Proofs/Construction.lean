import ScalarScript.Proofs.Fitting
import ScalarScript.Proofs.Result

/-! What can be built. A native value is written down with the values in it built by constructors, each with
or without a category. Exactly the values whose payload fits come about in this way, and their category is
the one written for them, or else that of their origin. -/
namespace ScalarScript

inductive Constructor where
  | int32 | int64 | bool | single | double | string | native

def Constructor.build : Constructor → Native → Option Category → Except Fault Value
  | int32 => Value.ofInt32
  | int64 => Value.ofInt64
  | bool => fun x category => .ok (Value.ofTruth x category)
  | single => Value.ofSingle
  | double => Value.ofNumber
  | string => Value.ofText
  | native => Value.ofNative

/-- A native value as it is written down. -/
inductive Source where
  /-- Nothing, a truth value, a number or a text. -/
  | scalar (s : Scalar)
  | bytes (bs : List UInt8)
  | list (items : List Source)
  | value (constructor : Constructor) (x : Source) (category : Option Category)

namespace Source

mutual

/-- The native value, unless one of the values in it is refused. -/
def toNative : Source → Except Fault Native
  | scalar s => .ok (.ofScalar s)
  | bytes bs => .ok (.bytes bs)
  | list items => do return .list (← toNatives items)
  | value constructor x category => do return .value (← constructor.build (← x.toNative) category)

def toNatives : List Source → Except Fault (List Native)
  | [] => .ok []
  | item :: rest => do return (← item.toNative) :: (← toNatives rest)

end

/-- The category written for a value: the one given to its constructor, or failing that the one written for
the value that the constructor passes on. -/
def override? : Source → Option Category
  | value .native x category => category.or x.override?
  | value _ _ category => category
  | _ => none

end Source

/-- Values that constructors build. -/
def Value.Built (v : Value) : Prop := ∃ source : Source, source.toNative = .ok (.value v)

namespace Constructor

theorem build_eq_ok {c : Constructor} {x : Native} {category : Option Category} {v : Value}
    (h : c.build x category = .ok v) :
    (c = native ∧ ∃ w, x = .value w ∧ v = ⟨w.scalar, category.getD w.category⟩) ∨
      (c = native → ∀ w, x ≠ .value w) ∧ ∃ s, s.Fits ∧ v = .ofScalar s category := by
  cases c with
  | int32 | int64 => exact .inr ⟨by simp, Value.ofFixed_eq_ok h⟩
  | bool =>
    cases h
    exact .inr ⟨by simp, .bool x.truth, trivial, rfl⟩
  | single => exact .inr ⟨by simp, Value.ofSingle_eq_ok h⟩
  | double => exact .inr ⟨by simp, Value.ofNumber_eq_ok h⟩
  | string => exact .inr ⟨by simp, Value.ofText_eq_ok h⟩
  | native =>
    obtain hw | ⟨hx, hs⟩ := Value.ofNative_eq_ok h
    · exact .inl ⟨rfl, hw⟩
    · exact .inr ⟨fun _ => hx, hs⟩

end Constructor

namespace Source

theorem toNative_value_eq_ok {c : Constructor} {x : Source} {category : Option Category} {y : Native}
    (h : (value c x category).toNative = .ok y) :
    ∃ z v, x.toNative = .ok z ∧ c.build z category = .ok v ∧ y = .value v := by
  rw [toNative] at h
  obtain ⟨z, hz, h⟩ := bind_eq_ok_iff.1 h
  obtain ⟨v, hv, h⟩ := bind_eq_ok_iff.1 h
  cases h
  exact ⟨z, v, hz, hv, rfl⟩

theorem toNative_value {c : Constructor} {x : Source} {category : Option Category} {y : Native} {v : Value}
    (hx : x.toNative = .ok y) (hb : c.build y category = .ok v) :
    (value c x category).toNative = .ok (.value v) := by
  rw [toNative, hx]
  simp only [bind, Except.bind, hb]
  rfl

/-- Nothing but a value has a category written for it. -/
theorem override?_eq_none {x : Source} {y : Native} (h : x.toNative = .ok y) (hy : ∀ w, y ≠ .value w) :
    x.override? = none := by
  cases x with
  | value c x category =>
    obtain ⟨-, v, -, -, rfl⟩ := toNative_value_eq_ok h
    exact absurd rfl (hy v)
  | scalar | bytes | list => rfl

theorem ofScalar_ne_value (s : Scalar) (v : Value) : Native.ofScalar s ≠ .value v := by
  cases s <;> simp [Native.ofScalar]

/-- A value that was written down fits, and has the category that was written for it, if any. -/
theorem fits_of_toNative : ∀ {x : Source} {v : Value}, x.toNative = .ok (.value v) →
    v.Fits ∧ v.category = x.override?.getD v.origin.category
  | scalar s, v, h => by
    rw [toNative, Except.ok.injEq] at h
    exact absurd h (ofScalar_ne_value s v)
  | bytes bs, v, h => by
    rw [toNative] at h
    cases h
  | list items, v, h => by
    rw [toNative] at h
    obtain ⟨natives, -, h⟩ := bind_eq_ok_iff.1 h
    cases h
  | value c x category, v, h => by
    obtain ⟨y, v', hy, hb, hv⟩ := toNative_value_eq_ok h
    cases hv
    obtain ⟨rfl, w, rfl, rfl⟩ | ⟨hc, s, hs, rfl⟩ := c.build_eq_ok hb
    · obtain ⟨hf, hw⟩ := fits_of_toNative hy
      refine ⟨hf, ?_⟩
      rw [override?]
      cases category with
      | none => exact hw
      | some category => rfl
    · refine ⟨hs, ?_⟩
      by_cases hn : c = .native
      · subst hn
        rw [override?, override?_eq_none hy (hc rfl), Option.or_none]
        rfl
      · cases c <;> first | rfl | exact absurd rfl hn

end Source

namespace Value

/-- Whatever fits can be built, and nothing else. -/
theorem built_iff_fits {v : Value} : v.Built ↔ v.Fits := by
  constructor
  · rintro ⟨source, h⟩
    exact (Source.fits_of_toNative h).1
  · intro h
    obtain ⟨s, category⟩ := v
    cases s with
    | int n =>
      have hb := ofFixed_of_fits (w := .int32) h (some category)
      exact ⟨_, Source.toNative_value (c := .int32) (x := .scalar (.int n)) rfl hb⟩
    | long n =>
      have hb := ofFixed_of_fits (w := .int64) h (some category)
      exact ⟨_, Source.toNative_value (c := .int64) (x := .scalar (.long n)) rfl hb⟩
    | none => exact ⟨.value .native (.scalar .none) (some category), rfl⟩
    | bool b => exact ⟨.value .bool (.scalar (.bool b)) (some category), rfl⟩
    | double x => exact ⟨.value .double (.scalar (.double x)) (some category), rfl⟩
    | string s => exact ⟨.value .string (.scalar (.string s)) (some category), rfl⟩

end Value
end ScalarScript
