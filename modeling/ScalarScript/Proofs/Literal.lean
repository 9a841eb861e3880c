import ScalarScript.Constant
import ScalarScript.Proofs.Result
import ScalarScript.Proofs.Text.Numeral
import ScalarScript.Proofs.Text.Quoted

/-! The literal of a native value determines the value, also when an item of a list or the end of a list
or of a value follows it. Hence the key of a constant determines the constant. -/
namespace ScalarScript

open Text (quoteChars_append_inj quoteByteChars_append_inj)

/-- The text ends here, or a separator or a closing bracket stands here. -/
def Delimited (tail : List Char) : Prop := ∀ c ∈ tail.head?, c = ',' ∨ c = ']'

theorem delimited_nil : Delimited [] := by simp [Delimited]

theorem delimited_comma (tail : List Char) : Delimited (',' :: tail) := by simp [Delimited]

theorem delimited_separator (tail : List Char) : Delimited (", ".toList ++ tail) := delimited_comma _

theorem delimited_bracket (tail : List Char) : Delimited (']' :: tail) := by simp [Delimited]

/-- Characters that delimit nothing. -/
def IsWord (cs : List Char) : Prop := ∀ c ∈ cs, c ≠ ',' ∧ c ≠ ']'

theorem IsWord.append_inj {u v r s : List Char} (hu : IsWord u) (hv : IsWord v) (hr : Delimited r)
    (hs : Delimited s) (h : u ++ r = v ++ s) : u = v ∧ r = s := by
  have absurd_cons {c : Char} {w x y : List Char} (hw : IsWord (c :: w)) (hx : Delimited x)
      (he : x = (c :: w) ++ y) : False := by
    have hc := hw c (by simp)
    rcases hx c (by simp [he]) with rfl | rfl <;> simp at hc
  induction u generalizing v with
  | nil =>
    cases v with
    | nil => exact ⟨rfl, h⟩
    | cons d v => exact (absurd_cons hv hr h).elim
  | cons c u ih =>
    cases v with
    | nil => exact (absurd_cons hu hs h.symm).elim
    | cons d v =>
      obtain ⟨rfl, ht⟩ := List.cons.inj h
      have hu' : IsWord u := fun e he => hu e (List.mem_cons_of_mem _ he)
      have hv' : IsWord v := fun e he => hv e (List.mem_cons_of_mem _ he)
      obtain ⟨rfl, rfl⟩ := ih hu' hv' ht
      exact ⟨rfl, rfl⟩

/-! ### Integers and doubles -/

theorem integerChars_inj {m n : ℤ} (h : Text.integerChars m = Text.integerChars n) : m = n := by
  have hsign {k l : ℕ} (he : '-' :: Nat.toDigits 10 k = Nat.toDigits 10 l) : False := by
    have hd := Text.isDigit_of_mem_toDigits (n := l) (c := '-') (by simp [← he])
    exact absurd hd (by decide)
  unfold Text.integerChars at h
  split_ifs at h
  · have := Text.toDigits_inj (List.cons.inj h).2
    omega
  · exact (hsign h).elim
  · exact (hsign h.symm).elim
  · have := Text.toDigits_inj h
    omega

theorem mem_integerChars {n : ℤ} {c : Char} (h : c ∈ Text.integerChars n) : c.isDigit ∨ c = '-' := by
  unfold Text.integerChars at h
  split_ifs at h
  · rcases List.mem_cons.1 h with rfl | h
    · exact .inr rfl
    · exact .inl (Text.isDigit_of_mem_toDigits h)
  · exact .inl (Text.isDigit_of_mem_toDigits h)

theorem integerText_eq_ok {n : ℤ} {s : String} (h : integerText n = .ok s) : s.toList = Text.integerChars n := by
  unfold integerText Text.integer? at h
  split_ifs at h
  · cases h
    exact String.toList_ofList

theorem literal_inj {x y : Double} (h : Text.literal x = Text.literal y) : x = y := by
  have := congrArg (fun s : String => Text.readDouble? s.toList) h
  simpa [Text.readDouble?_literal] using this

/-- A literal of a double is told from the numeral of an integer by one of its characters. -/
theorem exists_mem_literal (x : Double) : '.' ∈ (Text.literal x).toList ∨ 'e' ∈ (Text.literal x).toList ∨
    'n' ∈ (Text.literal x).toList := by
  cases x with
  | nan => exact .inr (.inr (by decide))
  | infinity negative => cases negative <;> exact .inr (.inr (by decide))
  | finite negative units h =>
    obtain ⟨c, rest, hcons, -, hmem⟩ := Text.magnitudeChars_eq_cons h
    rw [Text.toList_literal_finite, hcons]
    rcases hmem with hmem | hmem <;> simp [hmem]

theorem mem_literal {x : Double} {c : Char} (h : c ∈ (Text.literal x).toList) :
    c.isDigit ∨ c ∈ ['.', 'e', '+', '-', 'n', 'a', 'i', 'f'] := by
  have hnan : ∀ c ∈ (Text.literal .nan).toList, c ∈ ['.', 'e', '+', '-', 'n', 'a', 'i', 'f'] := List.all_iff_forall_prop.1 (by decide)
  have hinf : ∀ b, ∀ c ∈ (Text.literal (.infinity b)).toList, c ∈ ['.', 'e', '+', '-', 'n', 'a', 'i', 'f'] :=
    fun b => List.all_iff_forall_prop.1 (by cases b <;> decide)
  cases x with
  | nan => exact .inr (hnan c h)
  | infinity negative => exact .inr (hinf negative c h)
  | finite negative units hu =>
    rw [Text.toList_literal_finite, List.mem_append] at h
    rcases h with h | h
    · cases negative
      · simp [Text.signChars] at h
      · exact .inr (by simp_all [Text.signChars])
    · rcases Text.isNumeralChar_of_mem_magnitudeChars hu h with h | h
      · exact .inl h
      · exact .inr (List.mem_append_left ['n', 'a', 'i', 'f'] h)

theorem literal_ne_integerChars (x : Double) (n : ℤ) : (Text.literal x).toList ≠ Text.integerChars n := by
  intro h
  have hno {c : Char} (hc : c ∈ (Text.literal x).toList) : c.isDigit ∨ c = '-' := mem_integerChars (h ▸ hc)
  rcases exists_mem_literal x with hc | hc | hc <;> exact absurd (hno hc) (by decide)

/-! ### Scalars -/

namespace Native

/-- Natives whose literal is a word. -/
def IsAtom : Native → Prop
  | none | bool _ | int _ | double _ => True
  | _ => False

/-- What a native is, as its first character tells it: integers and doubles look alike. -/
def form : Native → Kind
  | double _ => .int
  | x => x.kind

end Native

/-- The form of the native whose literal starts with a character. -/
def leadForm (c : Char) : Kind :=
  if c = 'N' then .none
  else if c = 'T' ∨ c = 'F' then .bool
  else if c = Text.apostrophe ∨ c = Text.doubleQuote then .string
  else if c = 'b' then .bytes
  else if c = '[' then .list
  else if c = 'V' then .value
  else .int

theorem leadForm_of_isDigit {c : Char} (h : c.isDigit) : leadForm c = .int ∧ c ≠ ']' := by
  have hall : ∀ n ∈ List.range 10, leadForm (Char.ofNat (48 + n)) = .int ∧ Char.ofNat (48 + n) ≠ ']' := by decide
  have hc := Char.isDigit_iff_toNat.1 h
  have hle : 48 ≤ c.toNat := hc.1
  have := hall (c.toNat - 48) (by simp at hc ⊢; omega)
  rwa [Nat.add_sub_cancel' hle, Char.ofNat_toNat] at this

theorem leadForm_quoteMark (cs : List Char) : leadForm (Text.quoteMark cs) = .string ∧ Text.quoteMark cs ≠ ']' := by
  rcases Text.isMark_quoteMark cs with h | h <;> rw [h] <;> decide

theorem leadForm_integerChars (n : ℤ) :
    ∃ c rest, Text.integerChars n = c :: rest ∧ leadForm c = .int ∧ c ≠ ']' := by
  unfold Text.integerChars
  split_ifs
  · exact ⟨'-', _, rfl, by decide⟩
  · obtain ⟨c, rest, hc⟩ := List.exists_cons_of_ne_nil (Nat.toDigits_ne_nil (n := n.natAbs) (b := 10))
    exact ⟨c, rest, hc, leadForm_of_isDigit (Text.isDigit_of_mem_toDigits (n := n.natAbs) (by simp [hc]))⟩

theorem leadForm_literal (x : Double) :
    ∃ c rest, (Text.literal x).toList = c :: rest ∧ leadForm c = .int ∧ c ≠ ']' := by
  cases x with
  | nan => exact ⟨'n', _, rfl, by decide⟩
  | infinity negative =>
    cases negative
    · exact ⟨'i', _, rfl, by decide⟩
    · exact ⟨'-', _, rfl, by decide⟩
  | finite negative units h =>
    obtain ⟨c, rest, hcons, hc, -⟩ := Text.magnitudeChars_eq_cons h
    rw [Text.toList_literal_finite, hcons]
    cases negative
    · exact ⟨c, rest, rfl, leadForm_of_isDigit hc⟩
    · exact ⟨'-', c :: rest, rfl, by decide⟩

/-! ### Literals of the forms that are no words -/

namespace Native

theorem toList_of_inspect_int {n : ℤ} {s : String} (h : (int n).inspect = .ok s) :
    s.toList = Text.integerChars n := by
  rw [inspect] at h
  exact integerText_eq_ok h

theorem inspect_ofScalar (s : Scalar) : (ofScalar s).inspect = s.inspect := by
  cases s <;> rw [ofScalar, inspect, Scalar.inspect]

theorem ofScalar_inj {s t : Scalar} (ho : s.origin = t.origin) (h : ofScalar s = ofScalar t) : s = t := by
  cases s <;> cases t <;> simp_all [ofScalar, Scalar.origin]

theorem toList_of_inspect_list {items : List Native} {s : String} (h : (list items).inspect = .ok s) :
    ∃ parts, inspectAll items = .ok parts ∧
      s.toList = '[' :: ((", ".intercalate parts).toList ++ [']']) := by
  rw [inspect] at h
  cases hi : inspectAll items with
  | error fault => rw [hi] at h; cases h
  | ok parts =>
    rw [hi] at h
    cases h
    exact ⟨parts, rfl, by simp⟩

theorem inspectAll_cons {x : Native} {rest : List Native} {parts : List String}
    (h : inspectAll (x :: rest) = .ok parts) :
    ∃ first others, x.inspect = .ok first ∧ inspectAll rest = .ok others ∧ parts = first :: others := by
  rw [inspectAll] at h
  cases hx : x.inspect with
  | error fault => rw [hx] at h; cases h
  | ok first =>
    cases hr : inspectAll rest with
    | error fault => rw [hx, hr] at h; cases h
    | ok others =>
      rw [hx, hr] at h
      cases h
      exact ⟨first, others, rfl, rfl, rfl⟩

theorem toList_of_inspect_value {v : Value} {s : String} (h : (value v).inspect = .ok s) :
    ∃ payload, (ofScalar v.scalar).inspect = .ok payload ∧
      s.toList = "Variable(".toList ++ (payload.toList ++ (", ".toList ++ (v.origin.name.toList ++
        (", ".toList ++ (v.category.name.toList ++ [')']))))) := by
  rw [inspect, Value.inspect] at h
  rw [inspect_ofScalar]
  cases hp : v.scalar.inspect with
  | error fault => rw [hp] at h; cases h
  | ok payload =>
    rw [hp] at h
    cases h
    exact ⟨payload, rfl, by simp⟩

end Native

/-- The first character of a literal tells its form, and closes no list. -/
theorem leadForm_inspect {x : Native} {s : String} (h : x.inspect = .ok s) :
    ∃ c rest, s.toList = c :: rest ∧ leadForm c = x.form ∧ c ≠ ']' := by
  cases x with
  | none =>
    cases h
    exact ⟨'N', _, rfl, by decide⟩
  | bool b =>
    cases h
    cases b
    · exact ⟨'F', _, rfl, by decide⟩
    · exact ⟨'T', _, rfl, by decide⟩
  | int n =>
    rw [Native.toList_of_inspect_int h]
    exact leadForm_integerChars n
  | double x =>
    cases h
    exact leadForm_literal x
  | string s =>
    cases h
    rw [Text.quote, String.toList_ofList]
    exact ⟨_, _, rfl, leadForm_quoteMark s.toList⟩
  | bytes bs =>
    cases h
    rw [Text.toList_quoteBytes]
    exact ⟨'b', _, rfl, rfl, by decide⟩
  | list items =>
    obtain ⟨parts, -, hs⟩ := Native.toList_of_inspect_list h
    exact ⟨'[', _, hs, rfl, by decide⟩
  | value v =>
    obtain ⟨payload, -, hs⟩ := Native.toList_of_inspect_value h
    exact ⟨'V', _, hs, rfl, by decide⟩

theorem form_eq_of_append {a b : Native} {s t : String} (hs : a.inspect = .ok s) (ht : b.inspect = .ok t)
    {r u : List Char} (h : s.toList ++ r = t.toList ++ u) : a.form = b.form := by
  obtain ⟨c, rest, hc, hform, -⟩ := leadForm_inspect hs
  obtain ⟨d, rest', hd, hform', -⟩ := leadForm_inspect ht
  rw [hc, hd] at h
  obtain ⟨rfl, -⟩ := List.cons.inj h
  rw [← hform, hform']

/-! ### Unique reading -/

namespace Native

/-- The characters of words, digits aside. -/
def wordChars : List Char := ['.', 'e', '+', '-', 'n', 'a', 'i', 'f', 'N', 'o', 'T', 'r', 'u', 'F', 'l', 's']

theorem mem_of_isAtom {x : Native} {s : String} {c : Char} (hx : x.IsAtom) (h : x.inspect = .ok s)
    (hc : c ∈ s.toList) : c.isDigit ∨ c ∈ wordChars := by
  cases x with
  | none =>
    cases h
    have hall : ∀ c ∈ "None".toList, c ∈ wordChars := List.all_iff_forall_prop.1 (by decide)
    exact .inr (hall c hc)
  | bool b =>
    cases h
    have hall : ∀ b : Bool, ∀ c ∈ (if b then "True" else "False").toList, c ∈ wordChars :=
      fun b => List.all_iff_forall_prop.1 (by cases b <;> decide)
    exact .inr (hall b c hc)
  | int n =>
    rw [toList_of_inspect_int h] at hc
    exact (mem_integerChars hc).imp_right fun he : c = '-' => he ▸ by decide
  | double x =>
    cases h
    exact (mem_literal hc).imp_right fun hl => List.mem_append_left _ hl
  | string | bytes | list | value => exact hx.elim

theorem isWord_of_isAtom {x : Native} {s : String} (hx : x.IsAtom) (h : x.inspect = .ok s) : IsWord s.toList := by
  have hall : ∀ c ∈ wordChars, c ≠ ',' ∧ c ≠ ']' := List.all_iff_forall_prop.1 (by decide)
  intro c hc
  rcases mem_of_isAtom hx h hc with hd | hw
  · constructor <;> rintro rfl <;> exact absurd hd (by decide)
  · exact hall c hw

theorem eq_of_isAtom {a b : Native} {s t : String} (ha : a.IsAtom) (hb : b.IsAtom) (hs : a.inspect = .ok s)
    (ht : b.inspect = .ok t) (h : s.toList = t.toList) : a = b := by
  have hform : a.form = b.form := form_eq_of_append hs ht (congrArg (· ++ []) h)
  cases a with
  | none => cases b <;> first | rfl | exact hb.elim | simp [form, kind] at hform
  | bool x =>
    cases b with
    | bool y =>
      cases hs
      cases ht
      have hall : ∀ x y : Bool, (if x then "True" else "False").toList = (if y then "True" else "False").toList → x = y := by
        decide
      rw [hall x y h]
    | _ => first | exact hb.elim | simp [form, kind] at hform
  | int m =>
    rw [toList_of_inspect_int hs] at h
    cases b with
    | int n =>
      rw [toList_of_inspect_int ht] at h
      rw [integerChars_inj h]
    | double y =>
      cases ht
      exact (literal_ne_integerChars y m h.symm).elim
    | _ => first | exact hb.elim | simp [form, kind] at hform
  | double x =>
    cases hs
    cases b with
    | int n =>
      rw [toList_of_inspect_int ht] at h
      exact (literal_ne_integerChars x n h).elim
    | double y =>
      cases ht
      rw [literal_inj (String.toList_inj.1 h)]
    | _ => first | exact hb.elim | simp [form, kind] at hform
  | string | bytes | list | value => exact ha.elim

theorem ofScalar_cases (p : Scalar) : (∃ w, ofScalar p = string w) ∨ (ofScalar p).IsAtom := by
  cases p <;> simp [ofScalar, IsAtom]

/-- The literals of scalars' payloads, each with a text behind it. -/
theorem ofScalar_append_inj {p q : Scalar} {s t : String} (hs : (ofScalar p).inspect = .ok s)
    (ht : (ofScalar q).inspect = .ok t) {r u : List Char} (hr : Delimited r) (hu : Delimited u)
    (h : s.toList ++ r = t.toList ++ u) : ofScalar p = ofScalar q ∧ r = u := by
  have hform := form_eq_of_append hs ht h
  have not_atom {x : Native} {w : String} (hx : x.IsAtom) : x.form ≠ (string w).form := by
    cases x <;> simp_all [IsAtom, form, kind]
  rcases ofScalar_cases p with ⟨v, hp⟩ | hp <;> rcases ofScalar_cases q with ⟨w, hq⟩ | hq
  · rw [hp] at hs ⊢
    rw [hq] at ht ⊢
    cases hs
    cases ht
    simp only [Text.quote, String.toList_ofList] at h
    obtain ⟨hvw, rfl⟩ := quoteChars_append_inj h
    rw [String.toList_inj.1 hvw]
    exact ⟨rfl, rfl⟩
  · exact absurd (hp ▸ hform.symm) (not_atom hq)
  · exact absurd (hq ▸ hform) (not_atom hp)
  · obtain ⟨he, rfl⟩ := (isWord_of_isAtom hp hs).append_inj (isWord_of_isAtom hq ht) hr hu h
    exact ⟨eq_of_isAtom hp hq hs ht he, rfl⟩

theorem origin_name_append_inj {o p : Origin} {r u : List Char}
    (h : o.name.toList ++ (", ".toList ++ r) = p.name.toList ++ (", ".toList ++ u)) : o = p ∧ r = u := by
  have hword (o : Origin) : ∀ c ∈ o.name.toList, c ≠ ',' ∧ c ≠ ']' :=
    List.all_iff_forall_prop.1 (by cases o <;> decide)
  obtain ⟨hname, hrest⟩ :=
    IsWord.append_inj (hword o) (hword p) (delimited_separator r) (delimited_separator u) h
  refine ⟨?_, List.append_cancel_left hrest⟩
  have := Origin.ofName?_name p
  rw [← String.toList_inj.1 hname, Origin.ofName?_name] at this
  exact Option.some.inj this

theorem category_name_append_inj {c d : Category} {r u : List Char}
    (h : c.name.toList ++ ([')'] ++ r) = d.name.toList ++ ([')'] ++ u)) : c = d ∧ r = u := by
  cases c <;> cases d <;> simp_all [Category.name]

theorem value_append_inj {v w : Value} {s t : String} (hs : (value v).inspect = .ok s)
    (ht : (value w).inspect = .ok t) {r u : List Char} (h : s.toList ++ r = t.toList ++ u) : v = w ∧ r = u := by
  obtain ⟨p, hp, hsp⟩ := toList_of_inspect_value hs
  obtain ⟨q, hq, htq⟩ := toList_of_inspect_value ht
  rw [hsp, htq] at h
  simp only [List.append_assoc] at h
  have hpayload := List.append_cancel_left h
  obtain ⟨hscalar, hrest⟩ := ofScalar_append_inj hp hq (delimited_separator _) (delimited_separator _) hpayload
  obtain ⟨horigin, hrest⟩ := origin_name_append_inj (List.append_cancel_left hrest)
  obtain ⟨hcategory, rfl⟩ := category_name_append_inj hrest
  obtain ⟨scalar, category⟩ := v
  obtain ⟨scalar', category'⟩ := w
  obtain rfl := ofScalar_inj horigin hscalar
  obtain rfl : category = category' := hcategory
  exact ⟨rfl, rfl⟩

theorem exists_ofScalar_of_form {p : Scalar} {x : Native} (h : (ofScalar p).form = x.form) : ∃ q, x = ofScalar q := by
  cases x with
  | none => exact ⟨.none, rfl⟩
  | bool b => exact ⟨.bool b, rfl⟩
  | int n => exact ⟨.int n, rfl⟩
  | double x => exact ⟨.double x, rfl⟩
  | string s => exact ⟨.string s, rfl⟩
  | bytes | list | value => cases p <;> simp [ofScalar, form, kind] at h

theorem exists_of_form_list {x : Native} (h : x.form = .list) : ∃ items, x = list items := by
  cases x <;> simp_all [form, kind]

theorem exists_of_form_bytes {x : Native} (h : x.form = .bytes) : ∃ bs, x = bytes bs := by
  cases x <;> simp_all [form, kind]

theorem exists_of_form_value {x : Native} (h : x.form = .value) : ∃ v, x = value v := by
  cases x <;> simp_all [form, kind]

/-- What follows an item of a list: the bracket, or a separator and the other items. -/
def listTail (others : List String) (r : List Char) : List Char :=
  if others = [] then ']' :: r else ", ".toList ++ ((", ".intercalate others).toList ++ ']' :: r)

theorem delimited_listTail (others : List String) (r : List Char) : Delimited (listTail others r) := by
  unfold listTail
  split_ifs
  · exact delimited_bracket r
  · exact delimited_separator _

theorem toList_intercalate_cons (first : String) (others : List String) (r : List Char) :
    (", ".intercalate (first :: others)).toList ++ ']' :: r = first.toList ++ listTail others r := by
  cases others <;> simp [listTail]

theorem inspectAll_eq_nil_iff {items : List Native} {parts : List String} (h : inspectAll items = .ok parts) :
    parts = [] ↔ items = [] := by
  cases items with
  | nil =>
    cases h
    simp
  | cons x rest =>
    obtain ⟨first, others, -, -, rfl⟩ := inspectAll_cons h
    simp

mutual

/-- Literals with a delimited text behind them agree only if the values and the texts do. -/
theorem inspect_append_inj (a b : Native) {s t : String} (hs : a.inspect = .ok s) (ht : b.inspect = .ok t)
    {r u : List Char} (hr : Delimited r) (hu : Delimited u) (h : s.toList ++ r = t.toList ++ u) :
    a = b ∧ r = u := by
  have hform := form_eq_of_append hs ht h
  have flat (p : Scalar) (ha : a = ofScalar p) : a = b ∧ r = u := by
    subst ha
    obtain ⟨q, rfl⟩ := exists_ofScalar_of_form hform
    exact ofScalar_append_inj hs ht hr hu h
  cases a with
  | none => exact flat .none rfl
  | bool b => exact flat (.bool b) rfl
  | int n => exact flat (.int n) rfl
  | double x => exact flat (.double x) rfl
  | string s => exact flat (.string s) rfl
  | list items =>
    obtain ⟨items', rfl⟩ := exists_of_form_list hform.symm
    obtain ⟨ps, hps, hsp⟩ := toList_of_inspect_list hs
    obtain ⟨qs, hqs, htq⟩ := toList_of_inspect_list ht
    simp only [hsp, htq, List.cons_append, List.append_assoc, List.cons.injEq, true_and] at h
    obtain ⟨rfl, rfl⟩ := inspectAll_append_inj items items' hps hqs h
    exact ⟨rfl, rfl⟩
  | value v =>
    obtain ⟨w, rfl⟩ := exists_of_form_value hform.symm
    obtain ⟨rfl, rfl⟩ := value_append_inj hs ht h
    exact ⟨rfl, rfl⟩
  | bytes as =>
    obtain ⟨bs, rfl⟩ := exists_of_form_bytes hform.symm
    cases hs
    cases ht
    simp only [Text.toList_quoteBytes, List.cons_append, List.cons.injEq, true_and] at h
    obtain ⟨rfl, rfl⟩ := quoteByteChars_append_inj h
    exact ⟨rfl, rfl⟩

theorem inspectAll_append_inj (as bs : List Native) {ps qs : List String} (hs : inspectAll as = .ok ps)
    (ht : inspectAll bs = .ok qs) {r u : List Char}
    (h : (", ".intercalate ps).toList ++ ']' :: r = (", ".intercalate qs).toList ++ ']' :: u) :
    as = bs ∧ r = u := by
  cases as with
  | nil =>
    cases bs with
    | nil =>
      cases hs
      cases ht
      simpa using h
    | cons b bs =>
      obtain ⟨q, qs, hq, -, rfl⟩ := inspectAll_cons ht
      cases hs
      obtain ⟨c, rest, hc, -, hne⟩ := leadForm_inspect hq
      rw [toList_intercalate_cons, hc] at h
      simp at h
      exact absurd h.1.symm hne
  | cons a as =>
    obtain ⟨p, ps, hp, hps, rfl⟩ := inspectAll_cons hs
    cases bs with
    | nil =>
      cases ht
      obtain ⟨c, rest, hc, -, hne⟩ := leadForm_inspect hp
      rw [toList_intercalate_cons, hc] at h
      simp at h
      exact absurd h.1 hne
    | cons b bs =>
      obtain ⟨q, qs, hq, hqs, rfl⟩ := inspectAll_cons ht
      rw [toList_intercalate_cons, toList_intercalate_cons] at h
      obtain ⟨rfl, htail⟩ := inspect_append_inj a b hp hq (delimited_listTail ps r) (delimited_listTail qs u) h
      unfold listTail at htail
      split_ifs at htail with h1 h2 h2
      · obtain rfl := (inspectAll_eq_nil_iff hps).1 h1
        obtain rfl := (inspectAll_eq_nil_iff hqs).1 h2
        exact ⟨rfl, (List.cons.inj htail).2⟩
      · simp at htail
      · simp at htail
      · obtain ⟨rfl, rfl⟩ := inspectAll_append_inj as bs hps hqs (List.append_cancel_left htail)
        exact ⟨rfl, rfl⟩

end

theorem inspect_inj {a b : Native} {s : String} (ha : a.inspect = .ok s) (hb : b.inspect = .ok s) : a = b :=
  (inspect_append_inj a b ha hb delimited_nil delimited_nil rfl).1

/-! ### Which natives have a literal -/

mutual

/-- All integers in a native value, those in lists and in values too. -/
def integers : Native → List ℤ
  | int n => [n]
  | list items => allIntegers items
  | value ⟨.int n, _⟩ | value ⟨.long n, _⟩ => [n]
  | _ => []

def allIntegers : List Native → List ℤ
  | [] => []
  | item :: rest => item.integers ++ allIntegers rest

end

/-- An integer of at most as many digits as a numeral may have. -/
def IsShort (n : ℤ) : Prop := n.natAbs < 10 ^ Text.maxDigits

attribute [local irreducible] Text.maxDigits

theorem integer?_of_isShort {n : ℤ} (h : IsShort n) :
    Text.integer? n = some (String.ofList (Text.integerChars n)) := by
  unfold Text.integer?
  exact if_pos h

theorem integerText_of_isShort {n : ℤ} (h : IsShort n) :
    integerText n = .ok (String.ofList (Text.integerChars n)) := by
  unfold integerText
  simp only [integer?_of_isShort h]

theorem exists_inspect_scalar {s : Scalar} (h : ∀ n ∈ (value ⟨s, .none⟩).integers, IsShort n) :
    ∃ text, s.inspect = .ok text := by
  cases s with
  | int n | long n => exact ⟨_, by rw [Scalar.inspect]; exact integerText_of_isShort (h n (by simp [integers]))⟩
  | none | bool | double | string => exact ⟨_, by rw [Scalar.inspect]⟩

mutual

theorem exists_inspect : ∀ x : Native, (∀ n ∈ x.integers, IsShort n) → ∃ s, x.inspect = .ok s
  | none, _ | bool _, _ | double _, _ | string _, _ | bytes _, _ => ⟨_, by rw [inspect]⟩
  | int n, h => ⟨_, by rw [inspect, integerText_of_isShort (h n (by simp [integers]))]⟩
  | list items, h => by
    obtain ⟨parts, hp⟩ := exists_inspectAll items (by simpa [integers] using h)
    exact ⟨_, by rw [inspect, hp]; rfl⟩
  | value ⟨scalar, category⟩, h => by
    obtain ⟨text, ht⟩ := exists_inspect_scalar (s := scalar) (by cases scalar <;> simp_all [integers])
    exact ⟨_, by rw [inspect, Value.inspect, ht]; rfl⟩

theorem exists_inspectAll : ∀ items : List Native, (∀ n ∈ allIntegers items, IsShort n) →
    ∃ parts, inspectAll items = .ok parts
  | [], _ => ⟨[], by rw [inspectAll]⟩
  | item :: rest, h => by
    obtain ⟨first, hf⟩ := exists_inspect item fun n hn => h n (by simp [allIntegers, hn])
    obtain ⟨others, ho⟩ := exists_inspectAll rest fun n hn => h n (by simp [allIntegers, hn])
    exact ⟨_, by rw [inspectAll, hf, ho]; rfl⟩

end

theorem integerText_eq_error {n : ℤ} {fault : Fault} (h : integerText n = .error fault) :
    fault = .numeralTooLong := by
  unfold integerText at h
  split at h <;> cases h
  rfl

theorem inspect_scalar_eq_error {s : Scalar} {fault : Fault} (h : s.inspect = .error fault) :
    fault = .numeralTooLong := by
  cases s with
  | int n | long n => exact integerText_eq_error (by simpa only [Scalar.inspect] using h)
  | none | bool | double | string => rw [Scalar.inspect] at h; cases h

mutual

/-- Only a numeral that is too long keeps a native value from having a literal. -/
theorem inspect_eq_error : ∀ {x : Native} {fault : Fault}, x.inspect = .error fault → fault = .numeralTooLong
  | none, _, h | bool _, _, h | double _, _, h | string _, _, h | bytes _, _, h => by
    rw [inspect] at h
    cases h
  | int n, _, h => integerText_eq_error (by simpa only [inspect] using h)
  | list items, _, h => by
    rw [inspect] at h
    obtain he | ⟨parts, -, he⟩ := bind_eq_error_iff.1 h
    · exact inspectAll_eq_error he
    · cases he
  | value v, _, h => by
    rw [inspect, Value.inspect] at h
    obtain he | ⟨text, -, he⟩ := bind_eq_error_iff.1 h
    · exact inspect_scalar_eq_error he
    · cases he

theorem inspectAll_eq_error : ∀ {items : List Native} {fault : Fault}, inspectAll items = .error fault →
    fault = .numeralTooLong
  | [], _, h => by
    rw [inspectAll] at h
    cases h
  | item :: rest, _, h => by
    rw [inspectAll] at h
    obtain he | ⟨first, -, he⟩ := bind_eq_error_iff.1 h
    · exact inspect_eq_error he
    · obtain he | ⟨others, -, he⟩ := bind_eq_error_iff.1 he
      · exact inspectAll_eq_error he
      · cases he

end

theorem isShort_of_integerText {n : ℤ} {s : String} (h : integerText n = .ok s) : IsShort n := by
  unfold integerText Text.integer? at h
  rw [IsShort]
  generalize 10 ^ Text.maxDigits = bound at h ⊢
  by_contra hn
  rw [if_neg hn] at h
  cases h

mutual

/-- A native value with a literal has no integer of too many digits. -/
theorem isShort_of_inspect : ∀ {x : Native} {s : String}, x.inspect = .ok s → ∀ n ∈ x.integers, IsShort n
  | none, _, _ | bool _, _, _ | double _, _, _ | string _, _, _ | bytes _, _, _ => by simp [integers]
  | int n, _, h => by
    rw [inspect] at h
    simpa [integers] using isShort_of_integerText h
  | list items, _, h => by
    rw [inspect] at h
    obtain ⟨parts, hp, -⟩ := bind_eq_ok_iff.1 h
    rw [integers]
    exact isShort_of_inspectAll hp
  | value ⟨scalar, category⟩, _, h => by
    rw [inspect, Value.inspect] at h
    obtain ⟨text, ht, -⟩ := bind_eq_ok_iff.1 h
    cases scalar with
    | int n | long n =>
      rw [Scalar.inspect] at ht
      simpa [integers] using isShort_of_integerText ht
    | none | bool | double | string => simp [integers]

theorem isShort_of_inspectAll : ∀ {items : List Native} {parts : List String}, inspectAll items = .ok parts →
    ∀ n ∈ allIntegers items, IsShort n
  | [], _, _ => by simp [allIntegers]
  | item :: rest, _, h => by
    rw [inspectAll] at h
    obtain ⟨first, hf, h⟩ := bind_eq_ok_iff.1 h
    obtain ⟨others, ho, -⟩ := bind_eq_ok_iff.1 h
    rw [allIntegers, List.forall_mem_append]
    exact ⟨isShort_of_inspect hf, isShort_of_inspectAll ho⟩

end

/-- An integer of too many digits keeps all that holds it from having a literal. -/
theorem inspect_of_not_isShort {x : Native} {n : ℤ} (hn : n ∈ x.integers) (h : ¬ IsShort n) :
    x.inspect = .error .numeralTooLong := by
  cases hx : x.inspect with
  | error fault => rw [inspect_eq_error hx]
  | ok s => exact absurd (isShort_of_inspect hx n hn) h

end Native

/-! ### Keys -/

namespace Constant

/-- The constant's value can be written, so the constant has a key. -/
def HasKey (c : Constant) : Prop := ∃ key, c.key = .ok key

theorem key_eq_ok_iff {c : Constant} {key : Tag × String} :
    c.key = .ok key ↔ c.tag = key.1 ∧ c.value.inspect = .ok key.2 := by
  unfold Constant.key
  cases c.value.inspect with
  | error fault => simp [bind, Except.bind]
  | ok s => simp [bind, Except.bind, pure, Except.pure, Prod.ext_iff]

theorem key_inj {c d : Constant} {key : Tag × String} (hc : c.key = .ok key) (hd : d.key = .ok key) : c = d := by
  obtain ⟨hct, hcv⟩ := key_eq_ok_iff.1 hc
  obtain ⟨hdt, hdv⟩ := key_eq_ok_iff.1 hd
  obtain ⟨tag, value⟩ := c
  obtain ⟨tag', value'⟩ := d
  obtain rfl := Native.inspect_inj hcv hdv
  obtain rfl : tag = tag' := hct.trans hdt.symm
  rfl

theorem hasKey_iff {c : Constant} : c.HasKey ↔ ∃ s, c.value.inspect = .ok s := by
  constructor
  · rintro ⟨key, h⟩
    exact ⟨_, (key_eq_ok_iff.1 h).2⟩
  · rintro ⟨s, h⟩
    exact ⟨(c.tag, s), key_eq_ok_iff.2 ⟨rfl, h⟩⟩

theorem hasKey_of_isShort {c : Constant} (h : ∀ n ∈ c.value.integers, Native.IsShort n) : c.HasKey :=
  hasKey_iff.2 (c.value.exists_inspect h)

end Constant

end ScalarScript
