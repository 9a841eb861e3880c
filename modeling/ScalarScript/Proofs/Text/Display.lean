import ScalarScript.Proofs.Literal
import ScalarScript.Proofs.Number.Integral

/-! Numbers written as text, and read again from it. A double is displayed as the integer that it is, below
`10^16`, or else as its literal. The numeral of an integer is read as the integer and as its nearest double; from
a literal no integer is read, but the double again. -/
namespace ScalarScript

open Double (one ofInt)

namespace Text

attribute [local irreducible] Double.one maxDigits

theorem sixteen_le_maxDigits : 16 ≤ maxDigits := by
  unfold maxDigits
  decide

/-! ### Display -/

theorem ofList_integerChars (n : ℤ) : String.ofList (integerChars n) = toString n := by
  cases n with
  | ofNat k => rfl
  | negSucc k =>
    rw [integerChars, if_pos (Int.negSucc_lt_zero k), Int.natAbs_negSucc, String.ofList_cons]
    rfl

theorem display_finite (negative : Bool) {units : ℕ} (h : Representable units) :
    display (.finite negative units h) =
      if units % one = 0 ∧ units < 10 ^ 16 * one then
        String.ofList (integerChars (Double.finite negative units h).truncate)
      else literal (.finite negative units h) := by
  rw [display, Double.isIntegral]
  simp only [Bool.and_eq_true, beq_iff_eq, decide_eq_true_eq]

theorem display_of_isInteger {x : Double} {n : ℤ} (h : x.IsInteger n) (hn : |n| < 10 ^ 16) :
    display x = String.ofList (integerChars n) := by
  have ht := h.truncate
  obtain ⟨negative, k, hk, rfl, rfl⟩ := h
  have hk' : k < 10 ^ 16 := by
    rw [Int.abs_eq_natAbs, Double.natAbs_signed] at hn
    exact_mod_cast hn
  have hlt := Nat.mul_lt_mul_of_pos_right hk' Double.one_pos
  rw [display_finite, if_pos ⟨Nat.mul_mod_left k one, hlt⟩, ht]

/-- Of a finite double is displayed either the integer that it is, or its literal. -/
theorem display_finite_cases (negative : Bool) {units : ℕ} (h : Representable units) :
    (∃ n, (Double.finite negative units h).IsInteger n ∧ Native.IsShort n ∧
      display (.finite negative units h) = String.ofList (integerChars n)) ∨
      display (.finite negative units h) = literal (.finite negative units h) := by
  rw [display_finite]
  split_ifs with hi
  · obtain ⟨hmod, hlt⟩ := hi
    obtain ⟨k, rfl⟩ := exists_eq_mul_left_of_dvd (Nat.dvd_of_mod_eq_zero hmod)
    have hx : (Double.finite negative (k * one) h).IsInteger (Double.signed negative k) := ⟨negative, k, h, rfl, rfl⟩
    have hk : k < 10 ^ 16 := Nat.lt_of_mul_lt_mul_right hlt
    have hs : 10 ^ 16 ≤ 10 ^ maxDigits := Nat.pow_le_pow_right (by decide) sixteen_le_maxDigits
    refine .inl ⟨_, hx, ?_, by rw [hx.truncate]⟩
    rw [Native.IsShort, Double.natAbs_signed]
    exact hk.trans_le hs
  · exact .inr rfl

/-! ### Reading -/

theorem trim_eq_self {cs : List Char} (h : ∀ c ∈ cs, isBlank c = false) : trim cs = cs := by
  have hdrop {l : List Char} (hl : ∀ c ∈ l, isBlank c = false) : l.dropWhile isBlank = l := by
    cases l with
    | nil => rfl
    | cons c rest => rw [List.dropWhile_cons_of_neg (by simp [hl c])]
  rw [trim, hdrop h, hdrop fun c hc => h c (List.mem_reverse.1 hc), List.reverse_reverse]

theorem integerChars_eq (n : ℤ) : integerChars n = signChars (n < 0) ++ Nat.toDigits 10 n.natAbs := by
  rw [integerChars, signChars]
  by_cases h : n < 0 <;> simp [h]

theorem toDigits_eq_cons (k : ℕ) : ∃ c rest, Nat.toDigits 10 k = c :: rest ∧ c.isDigit := by
  obtain ⟨c, rest, h⟩ := List.exists_cons_of_ne_nil (Nat.toDigits_ne_nil (n := k) (b := 10))
  exact ⟨c, rest, h, isDigit_of_mem_toDigits (n := k) (by simp [h])⟩

theorem natural?_toDigits (k : ℕ) : natural? (Nat.toDigits 10 k) = some k := by
  rw [natural?_eq (fun c hc => isDigit_of_mem_toDigits hc) Nat.toDigits_ne_nil, Nat.ofDigitChars_ten_toDigits]

theorem isNumeralChar_of_mem_toDigits {k : ℕ} {c : Char} (h : c ∈ Nat.toDigits 10 k) : IsNumeralChar c :=
  .inl (isDigit_of_mem_toDigits h)

theorem readInteger?_integerChars {n : ℤ} (h : Native.IsShort n) : readInteger? (integerChars n) = some n := by
  have hlen : (Nat.toDigits 10 n.natAbs).length ≤ maxDigits :=
    (Nat.length_toDigits_le_iff (by decide) (by have := sixteen_le_maxDigits; omega)).2 h
  obtain ⟨c, rest, hcons, hc⟩ := toDigits_eq_cons n.natAbs
  rw [integerChars_eq, hcons, readInteger?_signChars _ hc fun d hd => isNumeralChar_of_mem_toDigits (hcons ▸ hd), ← hcons,
    if_neg (not_lt.2 hlen), natural?_toDigits, Option.map_some, Double.signed_natAbs]

theorem ofDecimal_eq_ofInt (n : ℤ) : Double.ofDecimal (n < 0) ⟨n.natAbs, 0⟩ = ofInt n := by
  rw [Decimal.ofDecimal_eq, ofInt]
  congr 1
  simp [Decimal.num]

theorem readDouble?_integerChars (n : ℤ) : readDouble? (integerChars n) = some (ofInt n) := by
  have hr : readDecimal? (Nat.toDigits 10 n.natAbs) = some ⟨n.natAbs, 0⟩ := by
    rw [readDecimal?_digits (fun c hc => isDigit_of_mem_toDigits hc) Nat.toDigits_ne_nil, Nat.ofDigitChars_ten_toDigits]
  obtain ⟨c, rest, hcons, hc⟩ := toDigits_eq_cons n.natAbs
  rw [integerChars_eq, hcons, readDouble?_signChars _ hc fun d hd => isNumeralChar_of_mem_toDigits (hcons ▸ hd), ← hcons,
    hr, Option.map_some, ofDecimal_eq_ofInt]

/-- No integer is read from the literal of a double, for its point or its exponent. -/
theorem readInteger?_literal (negative : Bool) {units : ℕ} (h : Representable units) :
    readInteger? (literal (.finite negative units h)).toList = none := by
  obtain ⟨c, rest, hcons, hc, hmem⟩ := magnitudeChars_eq_cons h
  have hnat : natural? (c :: rest) = none := by
    have hall : ¬ ∀ d ∈ c :: rest, d.isDigit := by
      intro hall
      rcases hmem with hmem | hmem <;> exact absurd (hall _ (List.mem_cons_of_mem c hmem)) (by decide)
    rw [natural?, if_neg]
    simpa only [Bool.and_eq_true, List.all_eq_true, not_and] using fun _ => hall
  rw [toList_literal_finite, hcons,
    readInteger?_signChars negative hc fun d hd => isNumeralChar_of_mem_magnitudeChars h (hcons ▸ hd), hnat,
    Option.map_none, ite_self]

/-! ### Words -/

/-- The characters of numerals and literals. -/
def IsNumberChar (c : Char) : Prop := c.isDigit ∨ c ∈ ['.', 'e', '+', '-', 'n', 'a', 'i', 'f']

theorem isNumberChar_cases {c : Char} (h : IsNumberChar c) : isBlank c = false ∧ c.toLower = c ∧ c ≠ 't' ∧ c ≠ 'l' := by
  rcases h with h | h
  · have hc : 48 ≤ c.toNat ∧ c.toNat ≤ 57 := Char.isDigit_iff_toNat.1 h
    refine ⟨?_, toLower_of_isDigit h, ?_, ?_⟩
    · simp [isBlank]; omega
    · rintro rfl; exact absurd h (by decide)
    · rintro rfl; exact absurd h (by decide)
  · have hall : ∀ c ∈ ['.', 'e', '+', '-', 'n', 'a', 'i', 'f'], isBlank c = false ∧ c.toLower = c ∧ c ≠ 't' ∧ c ≠ 'l' :=
      List.all_iff_forall_prop.1 (by decide)
    exact hall c h

end Text

end ScalarScript
