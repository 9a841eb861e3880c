import ScalarScript.Operator.Apply
import ScalarScript.Proofs.Fitting

/-! What constants stand for and what operators make of it. A constant stands for no value only for want of
a conversion. An operator over values that fit fails only for a mismatch or a zero divisor, and what it
gives is the value of a constant again. -/
namespace ScalarScript

/-! ### Results -/

namespace Value

/-- What operators give: a number, a truth value or a text, in the category of its origin. -/
inductive Plain : Value → Prop
  | double (x : Double) : Plain (ofDouble x)
  | bool (b : Bool) : Plain (ofBool b)
  | string (s : String) : Plain (ofString s)

theorem Plain.canonical {v : Value} (h : v.Plain) : v.Canonical := by
  cases h <;> exact ⟨trivial, rfl⟩

theorem Plain.toValue_ofValue {v : Value} (h : v.Plain) : (Constant.ofValue v).toValue = .ok v := by
  cases h <;> rfl

theorem Plain.hasKey {v : Value} (h : v.Plain) : (Constant.ofValue v).HasKey := by
  cases h <;> exact ⟨_, rfl⟩

end Value

open Value

/-! ### Faults of construction -/

theorem Native.toDouble_eq_error {x : Native} {fault : Fault} (h : x.toDouble = .error fault) :
    fault.family = .conversion ∨ x.inspect = .error fault := by
  unfold Native.toDouble at h
  split at h
  · cases h
  · cases h
    exact .inl rfl
  · cases h
    exact .inl rfl
  · obtain he | ⟨text, -, he⟩ := bind_eq_error_iff.1 h
    · exact .inr he
    · cases he
      exact .inl rfl

namespace Value

variable {x : Native} {fault : Fault}

theorem ofFixed_eq_error {w : Width} (h : ofFixed w x none = .error fault) :
    fault.family = .conversion ∨ x.inspect = .error fault := by
  cases x with
  | int n =>
    simp only [ofFixed] at h
    split at h
    · cases h
    · rw [Native.inspect]
      obtain he | ⟨text, -, he⟩ := bind_eq_error_iff.1 h
      · exact .inr he
      · cases he
        exact .inl rfl
  | _ =>
    cases h
    exact .inl rfl

theorem ofNumber_eq_error (h : ofNumber x none = .error fault) :
    fault.family = .conversion ∨ x.inspect = .error fault := by
  obtain he | ⟨y, -, he⟩ := bind_eq_error_iff.1 h
  · exact Native.toDouble_eq_error he
  · cases he

theorem family_ofText (h : ofText x none = .error fault) : fault.family = .conversion := by
  cases x with
  | string s => cases h
  | _ =>
    cases h
    rfl

end Value

namespace Constant

/-- A constant fails to stand for a value by conversion, or because the literal of what cannot be converted is
too long for the message. -/
theorem toValue_eq_error {c : Constant} {fault : Fault} (h : c.toValue = .error fault) :
    fault.family = .conversion ∨ c.value.inspect = .error fault := by
  obtain hc | ⟨w, hc⟩ | hc | hc | hc := c.toValue_cases <;> rw [hc] at h
  · cases h
  · exact ofFixed_eq_error h
  · cases h
  · exact ofNumber_eq_error h
  · exact .inl (family_ofText h)

/-- A constant that can be written fails to stand for a value only by conversion. -/
theorem family_toValue {c : Constant} {fault : Fault} (hk : c.HasKey) (h : c.toValue = .error fault) :
    fault.family = .conversion := by
  obtain ⟨text, ht⟩ := hasKey_iff.1 hk
  refine (toValue_eq_error h).resolve_right fun he => ?_
  cases ht.symm.trans he

theorem family_toValue_ne_machine {c : Constant} {fault : Fault} (h : c.toValue = .error fault) :
    fault.family ≠ .machine := by
  obtain hf | he := toValue_eq_error h
  · simp [hf]
  · simp [Native.inspect_eq_error he, Fault.family]

theorem inLanguage_toValue {c : Constant} {fault : Fault} (hk : c.HasKey) (h : c.toValue = .error fault) :
    fault.inLanguage = true := by
  rw [Fault.inLanguage, family_toValue hk h]

end Constant

/-! ### Outcomes -/

theorem Value.toDouble_eq_error {v : Value} {fault : Fault} (h : v.toDouble = .error fault) : fault = .overflow := by
  obtain ⟨scalar, category⟩ := v
  cases scalar with
  | int n | long n =>
    rw [Value.toDouble, Scalar.toDouble, doubleOfInteger] at h
    cases hn : Double.ofInt? n with
    | none =>
      rw [hn] at h
      cases h
      rfl
    | some x =>
      rw [hn] at h
      cases h
  | none | bool | double | string => cases h

theorem Value.toText_eq_error {v : Value} {fault : Fault} (h : v.toText = .error fault) : fault = .numeralTooLong := by
  obtain ⟨scalar, category⟩ := v
  cases scalar with
  | int n | long n => exact Native.integerText_eq_error (by simpa only [Value.toText, Scalar.toText] using h)
  | none | bool | double | string => cases h

/-- The outcome as it is handed out: a value, or a bare truth value. -/
def Outcome.toNative : Outcome → Native
  | value v => .value v
  | truth b => .bool b

theorem Value.ofNative_outcome (outcome : Outcome) : ofNative outcome.toNative none = .ok outcome.toValue := by
  cases outcome <;> rfl

namespace Operator

/-- Applies the operator at once, by its symbol, and wraps what comes out. -/
def compute (op : Operator) (a b : Value) : Except Fault Value := do
  let outcome ← applySymbol op.symbol a b
  ofNative outcome.toNative none

theorem compute_eq (op : Operator) (a b : Value) : op.compute a b = do return (← op.apply a b).toValue := by
  rw [compute, applySymbol, ofSymbol?_symbol]
  simp only [ofNative_outcome]
  rfl

/-- The ways in which an operator meets its operands. -/
theorem apply_cases (op : Operator) (a b : Value) :
    (common? a b = some .number ∧ ((∃ f, op.apply a b = arithmetic f a b) ∨ op.apply a b = division a b ∨
      ∃ test, op.apply a b = comparison test a b)) ∨
    (common? a b = some .string ∧ (op.apply a b = concatenation a b ∨ ∃ test, op.apply a b = textComparison test a b)) ∨
    (∃ t, op.apply a b = .ok (.truth t)) ∨ op.apply a b = mismatch op a b := by
  unfold apply
  split <;> try have hc := ‹common? a b = _›
  all_goals first
    | exact .inl ⟨hc, .inl ⟨_, rfl⟩⟩
    | exact .inl ⟨hc, .inr (.inl rfl)⟩
    | exact .inl ⟨hc, .inr (.inr ⟨_, rfl⟩)⟩
    | exact .inr (.inl ⟨hc, .inl rfl⟩)
    | exact .inr (.inl ⟨hc, .inr ⟨_, rfl⟩⟩)
    | exact .inr (.inr (.inl ⟨_, rfl⟩))
    | exact .inr (.inr (.inr rfl))

theorem arithmetic_ok {f : Double → Double → Double} {a b : Value} {x y : Double} (hx : a.toDouble = .ok x)
    (hy : b.toDouble = .ok y) : arithmetic f a b = .ok (.value (.ofDouble (f x y))) := by
  rw [arithmetic, hx, hy]
  rfl

theorem comparison_ok {test : Double → Double → Bool} {a b : Value} {x y : Double} (hx : a.toDouble = .ok x)
    (hy : b.toDouble = .ok y) : comparison test a b = .ok (.truth (test x y)) := by
  rw [comparison, hx, hy]
  rfl

theorem division_ok {a b : Value} {x y : Double} (hx : a.toDouble = .ok x) (hy : b.toDouble = .ok y) :
    division a b = if y.isZero then .error .divisionByZero else .ok (.value (.ofDouble (x.div y))) := by
  simp only [division, hx, hy, bind, Except.bind]
  cases y.isZero <;> rfl

theorem concatenation_ok {a b : Value} {x y : String} (hx : a.toText = .ok x) (hy : b.toText = .ok y) :
    concatenation a b = .ok (.value (.ofString (x ++ y))) := by
  rw [concatenation, hx, hy]
  rfl

theorem textComparison_ok {test : String → String → Bool} {a b : Value} {x y : String} (hx : a.toText = .ok x)
    (hy : b.toText = .ok y) : textComparison test a b = .ok (.truth (test x y)) := by
  rw [textComparison, hx, hy]
  rfl

/-- Of any two values, an operator never makes a fault of the machine. -/
theorem family_apply_ne_machine {op : Operator} {a b : Value} {fault : Fault} (h : op.apply a b = .error fault) :
    fault.family ≠ .machine := by
  have hd {v : Value} {next : Double → Except Fault Outcome} (hv : v.toDouble >>= next = .error fault)
      (hn : ∀ x, next x = .error fault → fault.family ≠ .machine) : fault.family ≠ .machine := by
    obtain he | ⟨x, -, he⟩ := bind_eq_error_iff.1 hv
    · simp [v.toDouble_eq_error he, Fault.family]
    · exact hn x he
  have ht {v : Value} {next : String → Except Fault Outcome} (hv : v.toText >>= next = .error fault)
      (hn : ∀ x, next x = .error fault → fault.family ≠ .machine) : fault.family ≠ .machine := by
    obtain he | ⟨x, -, he⟩ := bind_eq_error_iff.1 hv
    · simp [v.toText_eq_error he, Fault.family]
    · exact hn x he
  obtain ⟨-, ⟨f, hop⟩ | hop | ⟨test, hop⟩⟩ | ⟨-, hop | ⟨test, hop⟩⟩ | ⟨t, hop⟩ | hop := apply_cases op a b <;>
    rw [hop] at h
  · exact hd h fun x hx => hd hx fun y hy => nomatch hy
  · refine hd h fun y hy => ?_
    cases hz : y.isZero with
    | true =>
      rw [hz] at hy
      cases hy
      simp [Fault.family]
    | false =>
      rw [hz] at hy
      exact hd hy fun x hx => nomatch hx
  · exact hd h fun x hx => hd hx fun y hy => nomatch hy
  · exact ht h fun x hx => ht hx fun y hy => nomatch hy
  · exact ht h fun x hx => ht hx fun y hy => nomatch hy
  · cases h
  · cases h
    simp [Fault.family]

/-- Over values that fit, an operator gives a plain result, or finds a mismatch or a zero divisor. -/
theorem apply_fits (op : Operator) {a b : Value} (ha : a.Fits) (hb : b.Fits) :
    (∃ outcome, op.apply a b = .ok outcome ∧ outcome.toValue.Plain) ∨
      ∃ fault, op.apply a b = .error fault ∧ (fault.family = .mismatch ∨ fault.family = .division) := by
  obtain ⟨x, hx⟩ := ha.exists_toDouble
  obtain ⟨y, hy⟩ := hb.exists_toDouble
  obtain ⟨-, ⟨f, hop⟩ | hop | ⟨test, hop⟩⟩ | ⟨-, hop⟩ | ⟨t, hop⟩ | hop := apply_cases op a b
  · exact .inl ⟨_, hop.trans (arithmetic_ok hx hy), .double _⟩
  · rw [hop, division_ok hx hy]
    split
    · exact .inr ⟨_, rfl, .inr rfl⟩
    · exact .inl ⟨_, rfl, .double _⟩
  · exact .inl ⟨_, hop.trans (comparison_ok hx hy), .bool _⟩
  · obtain ⟨s, hs⟩ := ha.exists_toText
    obtain ⟨t, ht⟩ := hb.exists_toText
    obtain hop | ⟨test, hop⟩ := hop
    · exact .inl ⟨_, hop.trans (concatenation_ok hs ht), .string _⟩
    · exact .inl ⟨_, hop.trans (textComparison_ok hs ht), .bool _⟩
  · exact .inl ⟨_, hop, .bool t⟩
  · exact .inr ⟨_, hop, .inl rfl⟩

end Operator
end ScalarScript
