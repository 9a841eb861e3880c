import ScalarScript.Operator.Apply
import ScalarScript.Proofs.Script

/-! What constructors accept. Each has a domain of natives, and makes of these, and of no others, a value that
the matching projection turns back into the native, or into the number or the truth of it. A refusal is a matter
of conversion, which the operators take for having no answer, except where its message is to quote an integer of
too many digits. -/
namespace ScalarScript

namespace Native

/-- The natives that have a double. -/
def IsNumber : Native → Prop
  | double _ | bool _ | value _ => True
  | int n => n.natAbs < Double.integerEnd
  | none | string _ | bytes _ | list _ => False

/-- The double that a native stands for: itself, a truth value's, the nearest to an integer, or a value's. -/
def StandsFor : Native → Double → Prop
  | double y, x => x = y
  | bool b, x => x = .ofBool b
  | int n, x => x.NearestTo n
  | value v, x => v.toDouble = .ok x
  | none, _ | string _, _ | bytes _, _ | list _, _ => False

end Native

namespace Constructor

/-! ### The domain -/

/-- The natives that a constructor makes a value of. -/
def Accepts : Constructor → Native → Prop
  | int32, .int n => -2 ^ 31 ≤ n ∧ n < 2 ^ 31
  | int64, .int n | native, .int n => -2 ^ 63 ≤ n ∧ n < 2 ^ 63
  | bool, _ | string, .string _ => True
  | single, x | double, x => x.IsNumber
  | native, .none | native, .bool _ | native, .double _ | native, .string _ | native, .value _ => True
  | _, _ => False

/-- The constructor that `native` leaves a native to, by its kind. Every other constructor does its own work. -/
def resolve : Constructor → Native → Constructor
  | native, .bool _ => bool
  | native, .int n => if -2 ^ 31 ≤ n ∧ n < 2 ^ 31 then int32 else int64
  | native, .double _ => double
  | native, .string _ => string
  | c, _ => c

/-- What the value of a native is told by: its origin, and the projection that matches it. -/
def Shows : Constructor → Native → Value → Prop
  | int32, x, v => v.origin = .int ∧ Projection.int32.of v = .ok x
  | int64, x, v => v.origin = .long ∧ Projection.int64.of v = .ok x
  | bool, x, v => v.origin = .bool ∧ Projection.bool.of v = .ok (.bool x.truth)
  | single, x, v => v.origin = .double ∧ ∃ y, x.StandsFor y ∧ Projection.double.of v = .ok (.double y.toSingle)
  | double, x, v => v.origin = .double ∧ ∃ y, x.StandsFor y ∧ Projection.double.of v = .ok (.double y)
  | string, x, v => v.origin = .string ∧ Projection.text.of v = .ok x
  | native, .value w, v => v.scalar = w.scalar
  | native, .none, v => v.scalar = .none
  | native, _, _ => False

/-- The category that a value has when none is given. -/
def inherited : Constructor → Native → Value → Category
  | native, .value w, _ => w.category
  | _, _, v => v.origin.category

/-- What a constructor makes of a native that it accepts. -/
structure Makes (c : Constructor) (x : Native) (category : Option Category) (v : Value) : Prop where
  shows : (c.resolve x).Shows x v
  category_eq : v.category = category.getD (c.inherited x v)

/-! ### Refusals -/

/-- Whether a refusal quotes the native, and does not only name its kind. -/
def Quotes : Constructor → Native → Prop
  | int32, x | int64, x | native, x => x.kind = .int
  | single, x | double, x => x.kind ≠ .string ∧ x.kind ≠ .bytes
  | bool, _ | string, _ => False

/-- Whether a refusal is to quote an integer of too many digits. -/
def Overlong (c : Constructor) (x : Native) : Prop := c.Quotes x ∧ ∃ n ∈ x.integers, ¬ Native.IsShort n

/-- How a constructor refuses a native that it does not accept. -/
structure Refuses (c : Constructor) (x : Native) (fault : Fault) : Prop where
  overlong : c.Overlong x → fault = .numeralTooLong
  conversion : ¬ c.Overlong x → fault.family = .conversion

/-- A constructor makes a value of what it accepts, and refuses the rest. -/
def Verdict (c : Constructor) (x : Native) (category : Option Category) : Except Fault Value → Prop
  | .ok v => c.Accepts x ∧ c.Makes x category v
  | .error fault => ¬ c.Accepts x ∧ c.Refuses x fault

variable {c : Constructor} {x : Native} {category : Option Category} {fault : Fault}

theorem Verdict.exists_ok_iff {r : Except Fault Value} (h : c.Verdict x category r) :
    (∃ v, r = .ok v) ↔ c.Accepts x := by
  cases r with
  | ok v => exact iff_of_true ⟨v, rfl⟩ h.1
  | error fault => exact iff_of_false (by simp) h.1

theorem Verdict.exists_refuses {r : Except Fault Value} (h : c.Verdict x category r) (hx : ¬ c.Accepts x) :
    ∃ fault, r = .error fault ∧ c.Refuses x fault := by
  cases r with
  | ok v => exact absurd h.1 hx
  | error fault => exact ⟨fault, rfl, h.2⟩

theorem refuses_of_not_quotes (hq : ¬ c.Quotes x) (hf : fault.family = .conversion) : c.Refuses x fault :=
  ⟨fun h => absurd h.1 hq, fun _ => hf⟩

/-- A refusal that quotes the native fails in place of it if the native has no literal. -/
theorem exists_refuses_of_quotes {α : Type} (message : String → Fault) (hq : c.Quotes x)
    (hm : ∀ text, (message text).family = .conversion) :
    ∃ fault, (do throw (message (← x.inspect)) : Except Fault α) = .error fault ∧ c.Refuses x fault := by
  by_cases ho : c.Overlong x
  · obtain ⟨-, n, hn, hs⟩ := id ho
    refine ⟨.numeralTooLong, by rw [Native.inspect_of_not_isShort hn hs]; rfl, fun _ => rfl, fun h => absurd ho h⟩
  · obtain ⟨text, ht⟩ := x.exists_inspect fun n hn => by_contra fun hs => ho ⟨hq, n, hn, hs⟩
    exact ⟨message text, by rw [ht]; rfl, fun h => absurd h ho, fun _ => hm text⟩

/-! ### Integers -/

def ofWidth : Width → Constructor
  | .int32 => int32
  | .int64 => int64

theorem accepts_ofWidth_int (w : Width) (n : ℤ) : (ofWidth w).Accepts (.int n) ↔ w.fits n = true := by
  simp only [Width.fits, Bool.and_eq_true, decide_eq_true_eq]
  cases w <;> simp [ofWidth, Accepts, Width.bits]

theorem makes_ofWidth_int {w : Width} {n : ℤ} (h : w.fits n = true) (category : Option Category) :
    (ofWidth w).Makes (.int n) category (.ofScalar (w.scalar n) category) := by
  have hn := Width.wrap_of_fits h
  cases w with
  | int32 => exact ⟨⟨rfl, congrArg (fun m => Except.ok (Native.int m)) hn⟩, rfl⟩
  | int64 => exact ⟨⟨rfl, congrArg (fun m => Except.ok (Native.int m)) hn⟩, rfl⟩

theorem verdict_ofWidth (w : Width) (x : Native) (category : Option Category) :
    (ofWidth w).Verdict x category (Value.ofFixed w x category) := by
  cases x with
  | int n =>
    by_cases h : w.fits n = true
    · rw [Value.ofFixed_of_fits h category]
      exact ⟨(accepts_ofWidth_int w n).2 h, makes_ofWidth_int h category⟩
    · have hq : (ofWidth w).Quotes (.int n) := by cases w <;> rfl
      obtain ⟨fault, hf, hr⟩ := exists_refuses_of_quotes (fun _ => .outOfRange n w) hq fun _ => rfl
      rw [Native.inspect] at hf
      have he : Value.ofFixed w (.int n) category = .error fault := (if_neg h).trans hf
      rw [he]
      exact ⟨fun ha => h ((accepts_ofWidth_int w n).1 ha), hr⟩
  | _ => cases w <;> exact ⟨id, refuses_of_not_quotes (by simp [ofWidth, Quotes, Native.kind]) rfl⟩

end Constructor

/-! ### Numbers -/

namespace Native

variable {x : Native}

theorem double?_cases (hx : ∀ v, x = .value v → v.Fits) :
    (x.IsNumber ∧ ∃ y, x.double? = some y ∧ x.StandsFor y) ∨ ¬ x.IsNumber ∧ x.double? = .none := by
  cases x with
  | int n =>
    rw [IsNumber, ← Double.exists_ofInt?_iff, double?]
    cases hn : Double.ofInt? n with
    | none => exact .inr ⟨by simp, rfl⟩
    | some y => exact .inl ⟨⟨y, rfl⟩, y, rfl, Double.nearestTo_of_ofInt? hn⟩
  | value v =>
    obtain ⟨y, hy⟩ := (hx v rfl).exists_toDouble
    exact .inl ⟨trivial, y, by rw [double?, hy]; rfl, hy⟩
  | double y => exact .inl ⟨trivial, y, rfl, rfl⟩
  | bool b => exact .inl ⟨trivial, _, rfl, rfl⟩
  | none | string | bytes | list => exact .inr ⟨id, rfl⟩

/-- A native has a double that it stands for, or is refused: texts and bytes by their kind, others as a whole. -/
theorem toDouble_cases (hx : ∀ v, x = .value v → v.Fits) :
    (x.IsNumber ∧ ∃ y, x.toDouble = .ok y ∧ x.StandsFor y) ∨ ¬ x.IsNumber ∧
      ((¬ (x.kind ≠ .string ∧ x.kind ≠ .bytes) ∧ x.toDouble = .error (.numberExpected x.kind)) ∨
        (x.kind ≠ .string ∧ x.kind ≠ .bytes) ∧ x.toDouble = do throw (.notDouble (← x.inspect))) := by
  obtain ⟨hn, y, hy, hs⟩ | ⟨hn, hy⟩ := double?_cases hx
  · exact .inl ⟨hn, y, by simp only [toDouble, hy], hs⟩
  · refine .inr ⟨hn, ?_⟩
    clear hn hx
    unfold toDouble
    generalize x.double? = number at hy
    subst hy
    cases x with
    | string | bytes => exact .inl ⟨by simp [kind], rfl⟩
    | _ => exact .inr ⟨by simp [kind], rfl⟩

end Native

namespace Constructor

variable {x : Native}

theorem verdict_number {c : Constructor} (hc : c = single ∨ c = double) (hx : ∀ v, x = .value v → v.Fits)
    (category : Option Category) : c.Verdict x category (c.build x category) := by
  have hbuild {fault : Fault} (h : x.toDouble = .error fault) : c.build x category = .error fault := by
    rcases hc with rfl | rfl <;> simp only [build, Value.ofSingle, Value.ofNumber, h] <;> rfl
  have haccepts : c.Accepts x = x.IsNumber := by rcases hc with rfl | rfl <;> rfl
  have hquotes : c.Quotes x = (x.kind ≠ .string ∧ x.kind ≠ .bytes) := by rcases hc with rfl | rfl <;> rfl
  obtain ⟨hn, y, hy, hs⟩ | ⟨hn, ⟨hq, he⟩ | ⟨hq, he⟩⟩ := Native.toDouble_cases hx
  · rcases hc with rfl | rfl <;> simp only [build, Value.ofSingle, Value.ofNumber, hy] <;>
      exact ⟨hn, ⟨rfl, y, hs, rfl⟩, rfl⟩
  · rw [hbuild he]
    exact ⟨haccepts ▸ hn, refuses_of_not_quotes (hquotes ▸ hq) rfl⟩
  · obtain ⟨fault, hf, hr⟩ := exists_refuses_of_quotes (c := c) .notDouble (hquotes ▸ hq) fun _ => rfl
    rw [hbuild (he.trans hf)]
    exact ⟨haccepts ▸ hn, hr⟩

/-! ### Every native -/

theorem resolve_native_int (n : ℤ) :
    native.resolve (.int n) = if Width.int32.fits n = true then int32 else int64 := by
  have h := accepts_ofWidth_int .int32 n
  by_cases hn : Width.int32.fits n = true
  · exact (if_pos (h.2 hn)).trans (if_pos hn).symm
  · exact (if_neg fun ha => hn (h.1 ha)).trans (if_neg hn).symm

theorem verdict_native_int (n : ℤ) (category : Option Category) :
    native.Verdict (.int n) category (Value.ofNative (.int n) category) := by
  have hr := resolve_native_int n
  by_cases hn : Width.int32.fits n = true
  · rw [if_pos hn] at hr
    have hm := makes_ofWidth_int hn category
    rw [Value.ofNative, if_pos hn, Value.ofInt32, Value.ofFixed_of_fits hn]
    exact ⟨(accepts_ofWidth_int .int64 n).2 (Width.fits_int64 hn), hr ▸ hm.shows, hm.category_eq⟩
  · rw [if_neg hn] at hr
    rw [Value.ofNative, if_neg hn, Value.ofInt64]
    have hv := verdict_ofWidth .int64 (.int n) category
    cases hb : Value.ofFixed .int64 (.int n) category with
    | ok v =>
      rw [hb] at hv
      exact ⟨hv.1, hr ▸ hv.2.shows, hv.2.category_eq⟩
    | error fault =>
      rw [hb] at hv
      exact ⟨hv.1, hv.2.overlong, hv.2.conversion⟩

theorem verdict_native (x : Native) (category : Option Category) :
    native.Verdict x category (Value.ofNative x category) := by
  cases x with
  | int n => exact verdict_native_int n category
  | none | value => cases category <;> exact ⟨trivial, rfl, rfl⟩
  | bool | string => exact ⟨trivial, ⟨rfl, rfl⟩, rfl⟩
  | double y => exact ⟨trivial, ⟨rfl, y, rfl, rfl⟩, rfl⟩
  | bytes | list => exact ⟨id, refuses_of_not_quotes (by simp [Quotes, Native.kind]) rfl⟩

theorem verdict_build (c : Constructor) {x : Native} (hx : ∀ v, x = .value v → v.Fits) (category : Option Category) :
    c.Verdict x category (c.build x category) := by
  cases c with
  | int32 => exact verdict_ofWidth .int32 x category
  | int64 => exact verdict_ofWidth .int64 x category
  | bool => exact ⟨trivial, ⟨rfl, rfl⟩, rfl⟩
  | single => exact verdict_number (.inl rfl) hx category
  | double => exact verdict_number (.inr rfl) hx category
  | native => exact verdict_native x category
  | string =>
    cases x with
    | string s => exact ⟨trivial, ⟨rfl, rfl⟩, rfl⟩
    | _ => exact ⟨id, refuses_of_not_quotes id rfl⟩

end Constructor

/-! ### Operators -/

namespace Operator

theorem applyNative_none (op : Operator) (v : Value) (reflected : Bool) :
    op.applyNative v .none reflected = .ok none := rfl

/-- Of an operand without a value there is no answer, unless the refusal itself goes wrong. -/
theorem applyNative_of_not_accepts (op : Operator) (v : Value) {x : Native} (reflected : Bool)
    (h : ¬ Constructor.native.Accepts x) :
    (¬ Constructor.native.Overlong x → op.applyNative v x reflected = .ok none) ∧
      (Constructor.native.Overlong x → op.applyNative v x reflected = .error .numeralTooLong) := by
  obtain ⟨fault, hb, hr⟩ := (Constructor.verdict_native x none).exists_refuses h
  have ha : op.applyNative v x reflected = if fault.family = .conversion then .ok none else .error fault := by
    unfold applyNative
    rw [hb]
    cases x with
    | none => exact absurd trivial h
    | _ => rfl
  rw [ha]
  constructor
  · intro ho
    rw [if_pos (hr.conversion ho)]
  · intro ho
    rw [hr.overlong ho]
    rfl

end Operator

namespace Constructor

/-- A constructor makes values of its domain and of nothing else, each told by its origin, projection and category.
Every other native is refused for want of a conversion, and the operators have no answer for what `native` refuses;
but if the refusal is to quote an integer of too many digits, both fail for the length of the numeral. -/
theorem build_domain (c : Constructor) (x : Native) (category : Option Category)
    (hx : ∀ v, x = .value v → v.Built) :
    ((∃ v, c.build x category = .ok v) ↔ c.Accepts x) ∧
      (∀ v, c.build x category = .ok v → c.Makes x category v) ∧
      (∀ fault, c.build x category = .error fault → c.Refuses x fault) ∧
      ∀ (op : Operator) (v : Value) (reflected : Bool), x = .none ∨ ¬ native.Accepts x →
        (¬ native.Overlong x → op.applyNative v x reflected = .ok none) ∧
          (native.Overlong x → op.applyNative v x reflected = .error .numeralTooLong) := by
  have hv := c.verdict_build (fun v h => Value.built_iff_fits.1 (hx v h)) category
  refine ⟨hv.exists_ok_iff, ?_, ?_, ?_⟩
  · intro v hb
    rw [hb] at hv
    exact hv.2
  · intro fault hb
    rw [hb] at hv
    exact hv.2
  · rintro op v reflected (rfl | h)
    · exact ⟨fun _ => op.applyNative_none v reflected, fun ho => nomatch ho.1⟩
    · exact op.applyNative_of_not_accepts v reflected h

theorem build_domain_of_text : (⟨.int 7, .string⟩ : Value).Built ∧
    ∃ v, single.build (.value ⟨.int 7, .string⟩) none = .ok v ∧ single.Makes (.value ⟨.int 7, .string⟩) none v := by
  have hb : (⟨.int 7, .string⟩ : Value).Built := Value.built_iff_fits.2 rfl
  obtain ⟨hd, hm, -⟩ := build_domain single (.value ⟨.int 7, .string⟩) none fun v h => by
    cases h
    exact hb
  obtain ⟨v, hv⟩ := hd.2 trivial
  exact ⟨hb, v, hv, hm v hv⟩

theorem not_accepts_of_not_isShort {w : Width} {n : ℤ} (h : ¬ Native.IsShort n) : ¬ (ofWidth w).Accepts (.int n) :=
  fun ha => h (Width.isShort_of_fits ((accepts_ofWidth_int w n).1 ha))

attribute [local irreducible] Text.maxDigits

/-- An integer of one digit too many is not refused for want of a conversion, and the operators fail with it. -/
theorem build_overlong : int32.build (.int (10 ^ Text.maxDigits)) none = .error .numeralTooLong ∧
    Fault.numeralTooLong.family ≠ .conversion ∧
    Operator.add.applyNative (.ofScalar (.int 1) none) (.int (10 ^ Text.maxDigits)) false =
      .error .numeralTooLong := by
  have hlong : ¬ Native.IsShort (10 ^ Text.maxDigits) := by
    rw [Native.IsShort, Int.natAbs_pow]
    exact lt_irrefl _
  generalize (10 : ℤ) ^ Text.maxDigits = n at hlong ⊢
  have hover {c : Constructor} (hq : c.Quotes (.int n)) : c.Overlong (.int n) :=
    ⟨hq, n, by simp [Native.integers], hlong⟩
  have hnative : ¬ native.Accepts (.int n) := not_accepts_of_not_isShort (w := .int64) hlong
  refine ⟨?_, by decide, (Operator.add.applyNative_of_not_accepts _ _ hnative).2 (hover rfl)⟩
  have hint32 : ¬ int32.Accepts (.int n) := not_accepts_of_not_isShort (w := .int32) hlong
  obtain ⟨fault, hb, hr⟩ := (verdict_ofWidth .int32 (.int n) none).exists_refuses hint32
  exact hb.trans (congrArg Except.error (hr.overlong (hover rfl)))

end Constructor
end ScalarScript
