import Mathlib.Data.String.Basic
import ScalarScript.Proofs.Acceptance
import ScalarScript.Proofs.Number.Integral

/-! The six comparisons. Each of them says of two values what it says of two keys in a linear order: the places of
numbers on the number line, or texts. So they tell one order on the values that have keys, and NaN, which has none,
is apart from it. The place of an integer is that of its nearest double, which keeps the order of the integers. -/
namespace ScalarScript

open Operator (less greater equal notEqual lessEqual greaterEqual)

namespace Operator

/-! ### Relations -/

def comparisons : List Operator := [greater, less, greaterEqual, lessEqual, equal, notEqual]

/-- What a comparison says of two things in order; the other operators say nothing. -/
def relation {κ : Type} [LinearOrder κ] : Operator → κ → κ → Bool
  | greater, k, l => l < k
  | less, k, l => k < l
  | greaterEqual, k, l => l ≤ k
  | lessEqual, k, l => k ≤ l
  | equal, k, l => k = l
  | notEqual, k, l => k ≠ l
  | _, _, _ => false

theorem relation_map {κ ι : Type} [LinearOrder κ] [LinearOrder ι] {f : κ → ι} (hf : StrictMono f) (op : Operator) (k l : κ) :
    op.relation (f k) (f l) = op.relation k l := by
  cases op <;> simp [relation, hf.lt_iff_lt, hf.le_iff_le, hf.injective.eq_iff]

end Operator

open Operator (comparisons relation)

/-! ### Numbers and texts -/

namespace Double

variable {x y : Double} {test : ℤ → ℤ → Bool}

theorem compare_of_position {p q : ℤ} (hp : x.position = some p) (hq : y.position = some q) :
    compare test x y = test p q := by rw [Double.compare, hp, hq]

theorem compare_of_none (h : x.position = none ∨ y.position = none) : compare test x y = false := by
  rw [Double.compare]
  rcases h with h | h
  · rw [h]
  · rw [h]
    cases x.position <;> rfl

theorem position_eq_none_iff : x.position = none ↔ x = .nan := by
  cases x <;> simp [position]

end Double

namespace Value

/-- A number with a place on the number line. -/
def HasPlace (v : Value) (p : ℤ) : Prop := v.category = .number ∧ ∃ x, v.toDouble = .ok x ∧ x.position = some p

/-- A text, by the category of the value. -/
def HasText (v : Value) (s : String) : Prop := v.category = .string ∧ v.toText = .ok s

end Value

namespace Operator

variable {op : Operator} {a b : Value}

theorem forall_comparisons {P : Operator → Prop} : (∀ op ∈ comparisons, P op) ↔
    P greater ∧ P less ∧ P greaterEqual ∧ P lessEqual ∧ P equal ∧ P notEqual := by
  simp [comparisons]

theorem common?_of_category {category : Category} (ha : a.category = category) (hb : b.category = category) :
    common? a b = some category := by rw [common?, ha, hb, if_pos rfl]

/-- How a comparison tests two doubles: by their places, or with an answer that is fixed where one has none. -/
structure Tests (op : Operator) (test : Double → Double → Bool) : Prop where
  of_place {x y : Double} {p q : ℤ} : x.position = some p → y.position = some q → test x y = op.relation p q
  of_none {x y : Double} : x.position = none ∨ y.position = none → test x y = (op == notEqual)

theorem exists_tests (hop : op ∈ comparisons) (hc : common? a b = some .number) :
    ∃ test, op.apply a b = comparison test a b ∧ op.Tests test := by
  revert op
  rw [forall_comparisons]
  simp only [apply, hc]
  exact ⟨⟨_, rfl, fun hp hq => Double.compare_of_position hq hp, fun h => Double.compare_of_none h.symm⟩,
    ⟨_, rfl, Double.compare_of_position, Double.compare_of_none⟩,
    ⟨_, rfl, fun hp hq => Double.compare_of_position hq hp, fun h => Double.compare_of_none h.symm⟩,
    ⟨_, rfl, Double.compare_of_position, Double.compare_of_none⟩,
    ⟨_, rfl, Double.compare_of_position, Double.compare_of_none⟩,
    ⟨_, rfl, fun hp hq => (congrArg not (Double.compare_of_position hp hq)).trans decide_not.symm,
      fun h => congrArg not (Double.compare_of_none h)⟩⟩

theorem apply_of_hasPlace {p q : ℤ} (hop : op ∈ comparisons) (ha : a.HasPlace p) (hb : b.HasPlace q) :
    op.apply a b = .ok (.truth (op.relation p q)) := by
  obtain ⟨ha, x, hx, hp⟩ := ha
  obtain ⟨hb, y, hy, hq⟩ := hb
  obtain ⟨test, happly, htest⟩ := exists_tests hop (common?_of_category ha hb)
  rw [happly, comparison_ok hx hy, htest.of_place hp hq]

theorem apply_of_hasText {s t : String} (hop : op ∈ comparisons) (ha : a.HasText s) (hb : b.HasText t) :
    op.apply a b = .ok (.truth (op.relation s t)) := by
  have hc := common?_of_category ha.1 hb.1
  have hnot {s t : String} : (!decide (s < t)) = decide (t ≤ s) := by
    rw [← decide_not]
    exact decide_eq_decide.2 not_lt
  revert op
  rw [forall_comparisons]
  simp only [apply, hc, textComparison_ok ha.2 hb.2, relation, hnot, bne, beq_eq_decide, decide_not, and_self]

theorem apply_of_nan (hop : op ∈ comparisons) (ha : a.category = .number) (hb : b.category = .number) {x y : Double}
    (hx : a.toDouble = .ok x) (hy : b.toDouble = .ok y) (h : x = .nan ∨ y = .nan) :
    op.apply a b = .ok (.truth (op == notEqual)) := by
  obtain ⟨test, happly, htest⟩ := exists_tests hop (common?_of_category ha hb)
  rw [happly, comparison_ok hx hy, htest.of_none]
  simpa only [Double.position_eq_none_iff] using h

theorem common?_eq_some {category : Category} (h : common? a b = some category) :
    a.category = category ∧ b.category = category := by
  rw [common?] at h
  split_ifs at h with hab
  cases h
  exact ⟨rfl, hab.symm⟩

theorem apply_of_mismatch (hop : op ∈ comparisons) (hn : ¬ (a.category = .number ∧ b.category = .number))
    (hs : ¬ (a.category = .string ∧ b.category = .string)) : op.apply a b = mismatch op a b := by
  have hnumber : common? a b ≠ some .number := fun h => hn (common?_eq_some h)
  have hstring : common? a b ≠ some .string := fun h => hs (common?_eq_some h)
  revert op
  rw [forall_comparisons]
  cases hc : common? a b with
  | none => simp only [apply, hc, and_self]
  | some category =>
    cases category with
    | none | integer => simp only [apply, hc, and_self]
    | number => exact absurd hc hnumber
    | string => exact absurd hc hstring

end Operator

/-! ### One order -/

namespace Operator

/-- The comparison is made, and holds. -/
def Finds (op : Operator) (a b : Value) : Prop := op.apply a b = .ok (.truth true)

/-- On some values the comparisons are always made, and tell one order: a strict one, and the equality that belongs
to it. -/
structure Coherent (S : Value → Prop) (before : Value → Value → Prop) : Prop where
  decides {a b : Value} : S a → S b → ∀ op ∈ comparisons, ∃ t, op.apply a b = .ok (.truth t)
  less_iff {a b : Value} : S a → S b → (less.Finds a b ↔ before a b)
  unique {a b : Value} : S a → S b → ∃! op, op ∈ [less, equal, greater] ∧ op.Finds a b
  less_trans {a b c : Value} : S a → S b → S c → less.Finds a b → less.Finds b c → less.Finds a c
  equal_refl {a : Value} : S a → equal.Finds a a
  equal_symm {a b : Value} : S a → S b → equal.Finds a b → equal.Finds b a
  equal_trans {a b c : Value} : S a → S b → S c → equal.Finds a b → equal.Finds b c → equal.Finds a c
  less_congr {a a' b b' : Value} : S a → S a' → S b → S b' → equal.Finds a a' → equal.Finds b b' →
    (less.Finds a b ↔ less.Finds a' b')
  greater_iff {a b : Value} : S a → S b → (greater.Finds a b ↔ less.Finds b a)
  lessEqual_iff {a b : Value} : S a → S b → (lessEqual.Finds a b ↔ ¬ greater.Finds a b)
  greaterEqual_iff {a b : Value} : S a → S b → (greaterEqual.Finds a b ↔ ¬ less.Finds a b)
  notEqual_iff {a b : Value} : S a → S b → (notEqual.Finds a b ↔ ¬ equal.Finds a b)

section Keys

variable {κ : Type} [LinearOrder κ]

/-- The comparisons of two values find what holds of two keys. -/
structure Tells (a b : Value) (k l : κ) : Prop where
  greater : greater.Finds a b ↔ l < k
  less : less.Finds a b ↔ k < l
  greaterEqual : greaterEqual.Finds a b ↔ l ≤ k
  lessEqual : lessEqual.Finds a b ↔ k ≤ l
  equal : equal.Finds a b ↔ k = l
  notEqual : notEqual.Finds a b ↔ k ≠ l

theorem tells_of_relation {a b : Value} {k l : κ}
    (h : ∀ op ∈ comparisons, op.apply a b = .ok (.truth (op.relation k l))) : Tells a b k l := by
  have hfinds : ∀ op ∈ comparisons, (op.Finds a b ↔ op.relation k l = true) := fun op hop => by
    rw [Finds, h op hop]
    simp
  simp only [forall_comparisons, relation, decide_eq_true_eq] at hfinds
  obtain ⟨hgreater, hless, hgreaterEqual, hlessEqual, hequal, hnotEqual⟩ := hfinds
  exact ⟨hgreater, hless, hgreaterEqual, hlessEqual, hequal, hnotEqual⟩

theorem Tells.unique {a b : Value} {k l : κ} (h : Tells a b k l) :
    ∃! op, op ∈ [Operator.less, Operator.equal, Operator.greater] ∧ op.Finds a b := by
  have hother {op : Operator} : (op ∈ [Operator.less, Operator.equal, Operator.greater] ∧ op.Finds a b) ↔
      op = .less ∧ k < l ∨ op = .equal ∧ k = l ∨ op = .greater ∧ l < k := by
    simp only [List.mem_cons, List.not_mem_nil, or_false, ← h.less, ← h.equal, ← h.greater]
    constructor
    · rintro ⟨rfl | rfl | rfl, hf⟩ <;> simp [hf]
    · rintro (⟨rfl, hf⟩ | ⟨rfl, hf⟩ | ⟨rfl, hf⟩) <;> simp [hf]
  simp only [ExistsUnique, hother]
  rcases lt_trichotomy k l with hkl | rfl | hkl
  · exact ⟨.less, by simp [hkl], by simp [hkl.ne, hkl.not_gt]⟩
  · exact ⟨.equal, by simp⟩
  · exact ⟨.greater, by simp [hkl], by simp [hkl.ne', hkl.not_gt]⟩

/-- Values that are compared by keys in a linear order are compared coherently. -/
theorem coherent_of_keys {S : Value → Prop} {IsKey : Value → κ → Prop} {before : Value → Value → Prop}
    (hkey : ∀ v, S v → ∃ k, IsKey v k)
    (happly : ∀ op ∈ comparisons, ∀ a b k l, IsKey a k → IsKey b l → op.apply a b = .ok (.truth (op.relation k l)))
    (hbefore : ∀ a b k l, IsKey a k → IsKey b l → (before a b ↔ k < l)) : Coherent S before := by
  choose key hkey using hkey
  have tells {a b : Value} (ha : S a) (hb : S b) : Tells a b (key a ha) (key b hb) :=
    tells_of_relation fun op hop => happly op hop a b _ _ (hkey a ha) (hkey b hb)
  constructor
  case decides => exact fun ha hb op hop => ⟨_, happly op hop _ _ _ _ (hkey _ ha) (hkey _ hb)⟩
  case less_iff => exact fun ha hb => (tells ha hb).less.trans (hbefore _ _ _ _ (hkey _ ha) (hkey _ hb)).symm
  case unique => exact fun ha hb => (tells ha hb).unique
  case less_trans =>
    intro a b c ha hb hc
    rw [(tells ha hb).less, (tells hb hc).less, (tells ha hc).less]
    exact lt_trans
  case equal_refl => exact fun ha => (tells ha ha).equal.2 rfl
  case equal_symm =>
    intro a b ha hb
    rw [(tells ha hb).equal, (tells hb ha).equal]
    exact Eq.symm
  case equal_trans =>
    intro a b c ha hb hc
    rw [(tells ha hb).equal, (tells hb hc).equal, (tells ha hc).equal]
    exact Eq.trans
  case less_congr =>
    intro a a' b b' ha ha' hb hb'
    rw [(tells ha ha').equal, (tells hb hb').equal, (tells ha hb).less, (tells ha' hb').less]
    rintro haa hbb
    rw [haa, hbb]
  case greater_iff => exact fun ha hb => (tells ha hb).greater.trans (tells hb ha).less.symm
  case lessEqual_iff =>
    intro a b ha hb
    rw [(tells ha hb).lessEqual, (tells ha hb).greater, not_lt]
  case greaterEqual_iff =>
    intro a b ha hb
    rw [(tells ha hb).greaterEqual, (tells ha hb).less, not_lt]
  case notEqual_iff =>
    intro a b ha hb
    rw [(tells ha hb).notEqual, (tells ha hb).equal]

end Keys

end Operator

/-! ### Numbers and texts in order -/

namespace Value

/-- The values of a category that the comparisons put in order: all texts, and all numbers but NaN. -/
structure Ordered (category : Category) (v : Value) : Prop where
  built : v.Built
  category_eq : v.category = category
  ne_nan : category = .number → v.toDouble ≠ .ok .nan

/-- Before on the number line, or before in the order of code points. -/
inductive Precedes (a b : Value) : Prop
  | number {p q : ℤ} (ha : a.HasPlace p) (hb : b.HasPlace q) (h : p < q) : Precedes a b
  | text {s t : String} (ha : a.HasText s) (hb : b.HasText t)
      (h : List.Lex (fun c d => c.toNat < d.toNat) s.toList t.toList) : Precedes a b

variable {a b v : Value}

theorem Ordered.exists_hasPlace (h : v.Ordered .number) : ∃ p, v.HasPlace p := by
  obtain ⟨x, hx⟩ := (built_iff_fits.1 h.built).exists_toDouble
  have hne : x ≠ .nan := fun he => h.ne_nan rfl (he ▸ hx)
  obtain ⟨p, hp⟩ := Option.ne_none_iff_exists'.1 (mt Double.position_eq_none_iff.1 hne)
  exact ⟨p, h.category_eq, x, hx, hp⟩

theorem Ordered.exists_hasText (h : v.Ordered .string) : ∃ s, v.HasText s := by
  obtain ⟨s, hs⟩ := (built_iff_fits.1 h.built).exists_toText
  exact ⟨s, h.category_eq, hs⟩

theorem HasPlace.unique {p q : ℤ} (hp : v.HasPlace p) (hq : v.HasPlace q) : p = q := by
  obtain ⟨-, x, hx, hp⟩ := hp
  obtain ⟨-, y, hy, hq⟩ := hq
  obtain rfl : x = y := Except.ok.inj (hx.symm.trans hy)
  exact Option.some.inj (hp.symm.trans hq)

theorem HasText.unique {s t : String} (hs : v.HasText s) (ht : v.HasText t) : s = t :=
  Except.ok.inj (hs.2.symm.trans ht.2)

theorem HasPlace.not_hasText {p : ℤ} {s : String} (hp : v.HasPlace p) : ¬ v.HasText s := fun hs =>
  nomatch hp.1.symm.trans hs.1

theorem precedes_iff_of_hasPlace {p q : ℤ} (ha : a.HasPlace p) (hb : b.HasPlace q) : a.Precedes b ↔ p < q := by
  constructor
  · rintro (⟨ha', hb', h⟩ | ⟨ha', -, -⟩)
    · rwa [ha.unique ha', hb.unique hb']
    · exact absurd ha' ha.not_hasText
  · exact .number ha hb

theorem precedes_iff_of_hasText {s t : String} (ha : a.HasText s) (hb : b.HasText t) : a.Precedes b ↔ s < t := by
  constructor
  · rintro (⟨ha', -, -⟩ | ⟨ha', hb', h⟩)
    · exact absurd ha ha'.not_hasText
    · rw [ha.unique ha', hb.unique hb']
      exact String.lt_iff.2 h
  · exact fun h => .text ha hb (String.lt_iff.1 h)

end Value

namespace Operator

theorem coherent_numbers : Coherent (Value.Ordered .number) Value.Precedes :=
  coherent_of_keys (fun _ h => h.exists_hasPlace) (fun _ hop _ _ _ _ => apply_of_hasPlace hop)
    fun _ _ _ _ => Value.precedes_iff_of_hasPlace

theorem coherent_texts : Coherent (Value.Ordered .string) Value.Precedes :=
  coherent_of_keys (fun _ h => h.exists_hasText) (fun _ hop _ _ _ _ => apply_of_hasText hop)
    fun _ _ _ _ => Value.precedes_iff_of_hasText

/-- Numbers other than NaN are told one order by the comparisons, and so are texts. Of NaN and a number all of them
are false but inequality, and of any other two values none is made. -/
theorem comparisons_coherent :
    Coherent (Value.Ordered .number) Value.Precedes ∧ Coherent (Value.Ordered .string) Value.Precedes ∧
      (∀ a b : Value, a.Built → b.Built → a.category = .number → b.category = .number →
        a.toDouble = .ok .nan ∨ b.toDouble = .ok .nan →
          ∀ op ∈ comparisons, op.apply a b = .ok (.truth (op == notEqual))) ∧
      ∀ a b : Value, ¬ (a.category = .number ∧ b.category = .number) →
        ¬ (a.category = .string ∧ b.category = .string) →
          ∀ op ∈ comparisons, op.apply a b =
            .error (.typeMismatch (if op = notEqual then equal else op) a.category b.category) := by
  refine ⟨coherent_numbers, coherent_texts, ?_, fun a b hn hs op hop => apply_of_mismatch hop hn hs⟩
  intro a b ha hb hac hbc h op hop
  obtain ⟨x, hx⟩ := (Value.built_iff_fits.1 ha).exists_toDouble
  obtain ⟨y, hy⟩ := (Value.built_iff_fits.1 hb).exists_toDouble
  refine apply_of_nan hop hac hbc hx hy ?_
  rw [hx, hy] at h
  exact h.imp Except.ok.inj Except.ok.inj

/-- A text that stands for a number comes after a truth value, but not after NaN. -/
theorem comparisons_coherent_of_numeral :
    Value.Ordered .number ⟨.string " 1.5 ", .number⟩ ∧ Value.Ordered .number ⟨.bool true, .number⟩ ∧
      greater.Finds ⟨.string " 1.5 ", .number⟩ ⟨.bool true, .number⟩ ∧
      greater.apply ⟨.string " 1.5 ", .number⟩ (.ofDouble .nan) = .ok (.truth false) ∧
      greater.apply ⟨.string " 1.5 ", .string⟩ (.ofDouble .nan) = .error (.typeMismatch greater .string .number) := by
  have ha : Value.Ordered .number ⟨.string " 1.5 ", .number⟩ :=
    ⟨Value.built_iff_fits.2 trivial, rfl, fun _ => by decide +kernel⟩
  have hb : Value.Ordered .number ⟨.bool true, .number⟩ :=
    ⟨Value.built_iff_fits.2 trivial, rfl, fun _ => by decide +kernel⟩
  have hap : Value.HasPlace ⟨.string " 1.5 ", .number⟩ (3 * 2 ^ 1073) :=
    ⟨rfl, .finite false (3 * 2 ^ 1073) (by decide +kernel), by decide +kernel, by decide +kernel⟩
  have hbp : Value.HasPlace ⟨.bool true, .number⟩ (2 * 2 ^ 1073) := ⟨rfl, .ofInt 1, rfl, by decide +kernel⟩
  have hnan : (Value.ofDouble .nan).Built := Value.built_iff_fits.2 trivial
  obtain ⟨hnumbers, -, hnans, hmismatches⟩ := comparisons_coherent
  have hless := (hnumbers.less_iff hb ha).2 (.number hbp hap (by decide +kernel))
  exact ⟨ha, hb, (hnumbers.greater_iff ha hb).2 hless, hnans _ _ ha.built hnan rfl rfl (.inr rfl) greater (by decide),
    hmismatches _ _ (by decide) (by decide) greater (by decide)⟩

end Operator

/-! ### Integers -/

namespace Constructor

/-- An integer is built in one of the two widths that fit it. -/
theorem exists_build_int {c : Constructor} (hc : c ∈ [int32, int64, native]) {n : ℤ} (hn : c.Accepts (.int n)) :
    ∃ w : Width, w.fits n = true ∧ c.build (.int n) none = .ok (.ofScalar (w.scalar n) none) := by
  simp only [List.mem_cons, List.not_mem_nil, or_false] at hc
  rcases hc with rfl | rfl | rfl
  · have h := (accepts_ofWidth_int .int32 n).1 hn
    exact ⟨.int32, h, Value.ofFixed_of_fits h none⟩
  · have h := (accepts_ofWidth_int .int64 n).1 hn
    exact ⟨.int64, h, Value.ofFixed_of_fits h none⟩
  · have h := (accepts_ofWidth_int .int64 n).1 hn
    rw [build, Value.ofNative]
    split_ifs with h32
    · exact ⟨.int32, h32, Value.ofFixed_of_fits h32 none⟩
    · exact ⟨.int64, h, Value.ofFixed_of_fits h none⟩

end Constructor

namespace Value

theorem hasPlace_scalar {w : Width} {n : ℤ} (h : w.fits n = true) :
    (ofScalar (w.scalar n) none).HasPlace (Double.integerPlace n) := by
  obtain ⟨x, hx⟩ := Double.exists_ofInt? (Width.natAbs_le_of_fits h)
  have hd : doubleOfInteger n = .ok x := doubleOfInteger_ok hx
  cases w with
  | int32 => exact ⟨rfl, x, hd, Double.position_of_ofInt? hx⟩
  | int64 => exact ⟨rfl, x, hd, Double.position_of_ofInt? hx⟩

end Value

namespace Operator

theorem relation_mul_one (op : Operator) (x y : ℤ) :
    op.relation (x * Double.one) (y * Double.one) = op.relation x y :=
  relation_map (fun _ _ h => mul_lt_mul_of_pos_right h Double.natCast_one_pos) op x y

/-- Up to `2^53` integers are compared as they are. -/
theorem relation_integerPlace {x y : ℤ} (hx : |x| ≤ 2 ^ 53) (hy : |y| ≤ 2 ^ 53) (op : Operator) :
    op.relation (Double.integerPlace x) (Double.integerPlace y) = op.relation x y := by
  rw [Double.integerPlace_of_le hx, Double.integerPlace_of_le hy, relation_mul_one]

/-- Integers of 64 bits meet as doubles, which may make them equal, but never exchanges them. -/
theorem integers_keep_order {c d : Constructor} (hc : c ∈ [.int32, .int64, .native])
    (hd : d ∈ [.int32, .int64, .native]) {x y : ℤ} (hx : c.Accepts (.int x)) (hy : d.Accepts (.int y)) :
    ∃ a b, c.build (.int x) none = .ok a ∧ d.build (.int y) none = .ok b ∧
      (x ≤ y → lessEqual.apply a b = .ok (.truth true) ∧ greater.apply a b = .ok (.truth false)) ∧
      (less.apply a b = .ok (.truth true) → x < y) ∧
      (x = y → equal.apply a b = .ok (.truth true)) ∧
      (|x| ≤ 2 ^ 53 → |y| ≤ 2 ^ 53 → ∀ op ∈ comparisons, op.apply a b = .ok (.truth (op.relation x y))) := by
  obtain ⟨v, hv, ha⟩ := Constructor.exists_build_int hc hx
  obtain ⟨w, hw, hb⟩ := Constructor.exists_build_int hd hy
  refine ⟨_, _, ha, hb, ?_⟩
  have happly : ∀ op ∈ comparisons, op.apply (.ofScalar (v.scalar x) none) (.ofScalar (w.scalar y) none) =
      .ok (.truth (op.relation (Double.integerPlace x) (Double.integerPlace y))) := fun op hop =>
    apply_of_hasPlace hop (Value.hasPlace_scalar hv) (Value.hasPlace_scalar hw)
  have htells := tells_of_relation happly
  refine ⟨fun h => ⟨htells.lessEqual.2 (Double.integerPlace_mono h), ?_⟩, fun h => ?_, fun h => ?_, fun hx hy op hop => ?_⟩
  · rw [happly greater (by decide)]
    simpa [relation] using Double.integerPlace_mono h
  · by_contra hle
    exact (htells.less.1 h).not_ge (Double.integerPlace_mono (not_lt.1 hle))
  · exact htells.equal.2 (congrArg Double.integerPlace h)
  · rw [happly op hop, relation_integerPlace hx hy]

/-- The first two integers that are one double. -/
theorem integers_keep_order_of_neighbours :
    ∃ a b, Constructor.int64.build (.int (2 ^ 53)) none = .ok a ∧
      Constructor.native.build (.int (2 ^ 53 + 1)) none = .ok b ∧
      lessEqual.apply a b = .ok (.truth true) ∧ greater.apply a b = .ok (.truth false) := by
  have hx : Constructor.int64.Accepts (.int (2 ^ 53)) := ⟨by decide, by decide⟩
  have hy : Constructor.native.Accepts (.int (2 ^ 53 + 1)) := ⟨by decide, by decide⟩
  obtain ⟨a, b, ha, hb, h, -⟩ := integers_keep_order (c := .int64) (d := .native) (by simp) (by simp) hx hy
  obtain ⟨hle, hgt⟩ := h (by decide)
  exact ⟨a, b, ha, hb, hle, hgt⟩

end Operator
end ScalarScript
