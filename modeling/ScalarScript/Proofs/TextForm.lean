import ScalarScript.Proofs.Construction
import ScalarScript.Proofs.Text.Display

/-! The text of a number is as good as the number. A value built from it projects to the same integers, truth value
and doubles, but for the sign of a zero, which the text leaves out. Integers are read back as such, since many of
them are no doubles; the words for truth values never stand in the way. -/
namespace ScalarScript

open Double (ofInt)

/-! ### Projections of text -/

section Projections

variable {s : String} (h : ∀ c ∈ s.toList, Text.IsNumberChar c)

include h

theorem trim_toList : Text.trim s.toList = s.toList :=
  Text.trim_eq_self fun c hc => (Text.isNumberChar_cases (h c hc)).1

/-- Neither of the two words for truth values is written in the characters of numbers. -/
theorem truthOfText_eq : truthOfText s = !(doubleOfText s).isZero := by
  have hlower : Text.lower (Text.trim s.toList) = s.toList := by
    rw [trim_toList h, Text.lower]
    exact (List.map_congr_left fun c hc => (Text.isNumberChar_cases (h c hc)).2.1).trans (List.map_id _)
  have htrue : s.toList ≠ ['t', 'r', 'u', 'e'] := fun he =>
    (Text.isNumberChar_cases (h 't' (by simp [he]))).2.2.1 rfl
  have hfalse : s.toList ≠ ['f', 'a', 'l', 's', 'e'] := fun he =>
    (Text.isNumberChar_cases (h 'l' (by simp [he]))).2.2.2 rfl
  simp only [truthOfText, hlower, beq_iff_eq, htrue, hfalse, if_false]

end Projections

/-- What a text shows to its projections: a number, up to the sign of a zero, and its integer part. -/
structure Shows (s : String) (x : Double) (n : ℤ) : Prop where
  double : (doubleOfText s).SameNumber x
  integer : integerOfText s = n
  truth : truthOfText s = !x.isZero

theorem shows_of_isNumberChar {s : String} {x y : Double} {n : ℤ} (h : ∀ c ∈ s.toList, Text.IsNumberChar c)
    (hy : Text.readDouble? s.toList = some y) (hx : y.SameNumber x)
    (hn : (Text.readInteger? s.toList).getD y.truncate = n) : Shows s x n := by
  have hd : doubleOfText s = y := by rw [doubleOfText, trim_toList h, hy, Option.getD_some]
  refine ⟨hd ▸ hx, ?_, ?_⟩
  · rw [integerOfText, trim_toList h, hd, hn]
  · rw [truthOfText_eq h, hd, hx.isZero_eq]

theorem shows_nan : Shows (Text.display .nan) .nan 0 := ⟨.inl (by decide), by decide, by decide⟩

theorem shows_infinity (negative : Bool) : Shows (Text.display (.infinity negative)) (.infinity negative) 0 := by
  cases negative <;> exact ⟨.inl (by decide), by decide, by decide⟩

section

attribute [local irreducible] Text.maxDigits

/-- The numeral of an integer shows every number that is this integer. -/
theorem shows_integerChars {x : Double} {n : ℤ} (hs : Native.IsShort n) (hx : (ofInt n).SameNumber x) :
    Shows (String.ofList (Text.integerChars n)) x n := by
  refine shows_of_isNumberChar (y := ofInt n) ?_ ?_ hx ?_ <;> rw [String.toList_ofList]
  · intro c hc
    rcases mem_integerChars hc with h | rfl
    · exact .inl h
    · exact .inr (by decide)
  · exact Text.readDouble?_integerChars n
  · rw [Text.readInteger?_integerChars hs, Option.getD_some]

theorem shows_literal (negative : Bool) {units : ℕ} (h : Representable units) :
    Shows (Text.literal (.finite negative units h)) (.finite negative units h) (Double.finite negative units h).truncate := by
  refine shows_of_isNumberChar (fun c hc => mem_literal hc) (Text.readDouble?_literal _) (.inl rfl) ?_
  rw [Text.readInteger?_literal, Option.getD_none]

end

/-- A double is shown by its display form. -/
theorem shows_display (x : Double) : Shows (Text.display x) x x.truncate := by
  cases x with
  | nan => exact shows_nan
  | infinity negative => exact shows_infinity negative
  | finite negative units h =>
    obtain ⟨n, hn, hs, hd⟩ | hd := Text.display_finite_cases negative h
    · rw [hd, hn.truncate]
      exact shows_integerChars hs (hn.ofInt.sameNumber hn)
    · rw [hd]
      exact shows_literal negative h

/-! ### Values -/

theorem shows_integer {n : ℤ} {w : Width} (h : w.fits n = true) :
    ∃ s x, integerText n = .ok s ∧ doubleOfInteger n = .ok x ∧ Shows s x n ∧ (n != 0) = !x.isZero := by
  obtain ⟨x, hx⟩ := Double.exists_ofInt? (Width.natAbs_le_of_fits h)
  obtain rfl : ofInt n = x := Double.eq_of_ofInt? hx
  have hs : Native.IsShort n := Width.isShort_of_fits h
  exact ⟨_, ofInt n, Native.integerText_of_isShort hs, doubleOfInteger_ok hx, shows_integerChars hs (.inl rfl),
    (Double.not_isZero_ofInt n).symm⟩

namespace Value

variable {v : Value}

/-- A number that fits has a text that shows it. -/
theorem exists_shows (h : v.Fits) (ho : v.origin ∈ [Origin.int, .long, .double]) :
    ∃ s x, v.toText = .ok s ∧ v.toDouble = .ok x ∧ Shows s x v.scalar.toInteger ∧ v.toBool = !x.isZero := by
  obtain ⟨scalar, category⟩ := v
  cases scalar with
  | int n | long n =>
    obtain ⟨s, x, hs, hx, hshows, hzero⟩ := shows_integer h
    exact ⟨s, x, hs, hx, hshows, hzero⟩
  | double x => exact ⟨Text.display x, x, rfl, rfl, shows_display x, rfl⟩
  | none | bool | string => simp [origin, Scalar.origin] at ho

/-- A number is built again from its text, but for its origin and the sign of a zero. -/
theorem text_keeps_number (hv : v.Built) (ho : v.origin ∈ [Origin.int, .long, .double]) (category : Option Category) :
    ∃ s w, v.toText = .ok s ∧ ofText (.string s) category = .ok w ∧
      w.toInt32 = v.toInt32 ∧ w.toInt64 = v.toInt64 ∧ w.toBool = v.toBool ∧
      (∃ x y, v.toDouble = .ok x ∧ w.toDouble = .ok y ∧ y.SameNumber x) ∧
      (∃ x y, v.toSingle = .ok x ∧ w.toSingle = .ok y ∧ y.SameNumber x) ∧
      ∀ n, v.scalar = .int n ∨ v.scalar = .long n → w.toInt64 = n := by
  have hfits : v.Fits := built_iff_fits.1 hv
  obtain ⟨s, x, htext, hdouble, hshows, hbool⟩ := exists_shows hfits ho
  have hinteger : (Scalar.string s).toInteger = v.scalar.toInteger := hshows.integer
  have hint64 : (Scalar.string s).toInt64 = v.toInt64 := congrArg (wrap · 64) hinteger
  refine ⟨s, .ofScalar (.string s) category, htext, rfl, congrArg (wrap · 32) hinteger, hint64,
    hshows.truth.trans hbool.symm, ⟨x, _, hdouble, rfl, hshows.double⟩,
    ⟨x.toSingle, _, by rw [toSingle, Scalar.toSingle, ← toDouble, hdouble]; rfl, rfl, hshows.double.toSingle⟩, ?_⟩
  intro n hn
  have hn' : v.toInt64 = n := by
    obtain ⟨scalar, c⟩ := v
    rcases hn with rfl | rfl
    · exact Width.wrap_of_fits (w := .int64) (Width.fits_int64 (w := .int32) hfits)
    · exact Width.wrap_of_fits (w := .int64) hfits
  exact hint64.trans hn'

/-- An integer that no double holds. -/
theorem text_keeps_number_of_odd :
    (Value.ofScalar (.long (2 ^ 53 + 1)) none).Built ∧
      (Value.ofScalar (.long (2 ^ 53 + 1)) none).origin ∈ [Origin.int, .long, .double] ∧
      ∃ s w, (Value.ofScalar (.long (2 ^ 53 + 1)) none).toText = .ok s ∧ ofText (.string s) none = .ok w ∧
        w.toInt64 = 2 ^ 53 + 1 := by
  have hfits : Width.int64.fits (2 ^ 53 + 1) = true := by decide
  have hv : (Value.ofScalar (.long (2 ^ 53 + 1)) none).Built := built_iff_fits.2 hfits
  have ho : (Value.ofScalar (.long (2 ^ 53 + 1)) none).origin ∈ [Origin.int, .long, .double] := by decide
  obtain ⟨s, w, hs, hw, -, -, -, -, -, hn⟩ := text_keeps_number hv ho none
  exact ⟨hv, ho, s, w, hs, hw, hn _ (.inr rfl)⟩

end Value
end ScalarScript
