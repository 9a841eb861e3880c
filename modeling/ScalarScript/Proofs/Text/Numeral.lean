import ScalarScript.Text.Numeral
import ScalarScript.Proofs.Number.Decimal
import Mathlib.Data.Bool.AllAny
import Mathlib.Data.List.TakeWhile

/-! The literal of a double reads back as that double. A written decimal is digits around a point with
an exponent; the reader puts the same value together again, and decimals of one value are one
double. -/
namespace ScalarScript.Text

/-! ### Plain characters -/

/-- Reading leaves the character as it is. -/
def IsPlain (c : Char) : Prop := toAsciiDigit c = c ∧ c ≠ '_'

theorem digit?_of_isDigit {c : Char} (h : c.isDigit) : digit? c = some (c.toNat - 48) := by
  have hc : 48 ≤ c.toNat ∧ c.toNat ≤ 57 := Char.isDigit_iff_toNat.1 h
  rw [digit?, digitZeros, List.find?_cons_of_pos (by simp; omega)]
  rfl

theorem isPlain_of_isDigit {c : Char} (h : c.isDigit) : IsPlain c := by
  have hc : 48 ≤ c.toNat := (Char.isDigit_iff_toNat.1 h).1
  refine ⟨?_, ?_⟩
  · rw [toAsciiDigit, digit?_of_isDigit h]
    dsimp only
    rw [Nat.add_sub_cancel' hc, Char.ofNat_toNat]
  · rintro rfl
    exact absurd h (by decide)

theorem dropSeparators?_eq {cs : List Char} (h : ∀ c ∈ cs, c ≠ '_') (afterDigit : Bool) :
    dropSeparators? afterDigit cs = some cs := by
  induction cs generalizing afterDigit with
  | nil => rfl
  | cons c cs ih =>
    have hc : c ≠ '_' := h c (by simp)
    rw [dropSeparators?.eq_3 _ _ _ (fun he => hc he), ih (fun d hd => h d (by simp [hd]))]
    rfl

theorem plain?_eq {cs : List Char} (h : ∀ c ∈ cs, IsPlain c) : plain? cs = some cs := by
  have hm : cs.map toAsciiDigit = cs := List.map_congr_left (fun c hc => (h c hc).1) |>.trans (List.map_id cs)
  rw [plain?, hm, dropSeparators?_eq fun c hc => (h c hc).2]

/-! ### Digits -/

theorem natural?_eq {cs : List Char} (h : ∀ c ∈ cs, c.isDigit) (hne : cs ≠ []) :
    natural? cs = some (Nat.ofDigitChars 10 cs 0) := by
  have hall : cs.all Char.isDigit := List.all_eq_true.2 h
  simp [natural?, hne, hall]

theorem toDigits_inj {m n : ℕ} (h : Nat.toDigits 10 m = Nat.toDigits 10 n) : m = n := by
  rw [← Nat.ofDigitChars_ten_toDigits (n := m), h, Nat.ofDigitChars_ten_toDigits]

theorem isDigit_of_mem_toDigits {n : ℕ} {c : Char} (h : c ∈ Nat.toDigits 10 n) : c.isDigit :=
  Nat.isDigit_of_mem_toDigits (by decide) (by decide) h

theorem isDigit_of_mem_replicate {n : ℕ} {c : Char} (h : c ∈ List.replicate n '0') : c.isDigit := by
  rw [List.eq_of_mem_replicate h]
  decide

/-- Characters that no digits follow directly: nothing, a point or an exponent. -/
def StopsDigits (tail : List Char) : Prop := tail.head?.all fun c => !c.isDigit

theorem takeWhile_digits {ds tail : List Char} (hd : ∀ c ∈ ds, c.isDigit) (ht : StopsDigits tail) :
    (ds ++ tail).takeWhile Char.isDigit = ds := by
  rw [List.takeWhile_append_of_pos hd]
  cases tail with
  | nil => simp
  | cons c tail =>
    have : ¬ c.isDigit := by simpa [StopsDigits] using ht
    rw [List.takeWhile_cons_of_neg this, List.append_nil]

theorem dropWhile_digits {ds tail : List Char} (hd : ∀ c ∈ ds, c.isDigit) (ht : StopsDigits tail) :
    (ds ++ tail).dropWhile Char.isDigit = tail := by
  rw [List.dropWhile_append_of_pos hd]
  cases tail with
  | nil => rfl
  | cons c tail =>
    have : ¬ c.isDigit := by simpa [StopsDigits] using ht
    rw [List.dropWhile_cons_of_neg this]

/-! ### Decimals -/

theorem readDecimal?_point {whole fraction tail : List Char} {exponent : ℤ} (hw : ∀ c ∈ whole, c.isDigit)
    (hf : ∀ c ∈ fraction, c.isDigit) (hne : whole ++ fraction ≠ []) (ht : StopsDigits tail)
    (he : readExponent? tail = some exponent) :
    readDecimal? (whole ++ '.' :: (fraction ++ tail)) =
      some ⟨Nat.ofDigitChars 10 (whole ++ fraction) 0, exponent - fraction.length⟩ := by
  have hp : StopsDigits ('.' :: (fraction ++ tail)) := by simp [StopsDigits]
  have hall : ∀ c ∈ whole ++ fraction, c.isDigit := by
    intro c hc
    exact (List.mem_append.1 hc).elim (hw c) (hf c)
  simp only [readDecimal?, takeWhile_digits hw hp, dropWhile_digits hw hp, takeWhile_digits hf ht,
    dropWhile_digits hf ht, natural?_eq hall hne, he]
  rfl

theorem readDecimal?_whole {whole tail : List Char} {exponent : ℤ} (hw : ∀ c ∈ whole, c.isDigit)
    (hne : whole ≠ []) (ht : StopsDigits tail) (hdot : tail.head? ≠ some '.')
    (he : readExponent? tail = some exponent) :
    readDecimal? (whole ++ tail) = some ⟨Nat.ofDigitChars 10 whole 0, exponent⟩ := by
  unfold readDecimal?
  simp only [takeWhile_digits hw ht, dropWhile_digits hw ht]
  split
  · simp at hdot
  · simp [natural?_eq hw hne, he]

theorem readDecimal?_digits {digits : List Char} (hd : ∀ c ∈ digits, c.isDigit) (hne : digits ≠ []) :
    readDecimal? digits = some ⟨Nat.ofDigitChars 10 digits 0, 0⟩ := by
  have hstop : StopsDigits [] := rfl
  have hexp : readExponent? [] = some 0 := rfl
  have h := readDecimal?_whole hd hne hstop (by simp) hexp
  rwa [List.append_nil] at h

theorem readDecimal?_positional {digits : List Char} (point : ℤ) (hd : ∀ c ∈ digits, c.isDigit)
    (hne : digits ≠ []) :
    ∃ d, readDecimal? (positional digits point) = some d ∧
      d.value = Nat.ofDigitChars 10 digits 0 * 10 ^ (point - digits.length) := by
  have hstop : StopsDigits [] := rfl
  have hexp : readExponent? [] = some 0 := rfl
  have hzero : ∀ c ∈ ['0'], c.isDigit := List.all_iff_forall_prop.1 (by decide)
  unfold positional
  split_ifs with h0 hle
  · -- zeros stand between the point and the digits
    set zeros := List.replicate (-point).toNat '0'
    have hf : ∀ c ∈ zeros ++ digits, c.isDigit := fun c hc =>
      (List.mem_append.1 hc).elim isDigit_of_mem_replicate (hd c)
    have hr := readDecimal?_point hzero hf (by simp) hstop hexp
    rw [List.append_nil] at hr
    refine ⟨_, hr, ?_⟩
    have hlen : (0 : ℤ) - (zeros ++ digits).length = point - digits.length := by
      simp only [zeros, List.length_append, List.length_replicate]
      omega
    rw [Decimal.value, hlen]
    simp [zeros, Nat.ofDigitChars_append, Nat.ofDigitChars_cons]
  · -- zeros stand between the digits and the point
    set zeros := List.replicate (point - digits.length).toNat '0'
    have hw : ∀ c ∈ digits ++ zeros, c.isDigit := fun c hc =>
      (List.mem_append.1 hc).elim (hd c) isDigit_of_mem_replicate
    have hr := readDecimal?_point hw hzero (by simp) hstop hexp
    rw [List.append_nil] at hr
    refine ⟨_, hr, ?_⟩
    have hpow : (10 : ℚ) ^ (point - digits.length) = 10 ^ (point - digits.length).toNat := by
      rw [← zpow_natCast, Int.toNat_of_nonneg (by omega)]
    simp [Decimal.value, hpow, zeros, Nat.ofDigitChars_append, Nat.ofDigitChars_cons]
    ring
  · -- the point stands between the digits
    have hsplit : digits.take point.toNat ++ digits.drop point.toNat = digits := List.take_append_drop ..
    have hr := readDecimal?_point (fun c hc => hd c (List.mem_of_mem_take hc))
      (fun c hc => hd c (List.mem_of_mem_drop hc)) (hsplit ▸ hne) hstop hexp
    rw [List.append_nil, hsplit] at hr
    refine ⟨_, hr, ?_⟩
    have hlen : (0 : ℤ) - (digits.drop point.toNat).length = point - digits.length := by
      rw [List.length_drop]
      omega
    rw [Decimal.value, hlen]

theorem readExponent?_power (exponent : ℤ) (zeros : ℕ) :
    readExponent? ('e' :: (if exponent < 0 then '-' else '+') ::
      (List.replicate zeros '0' ++ Nat.toDigits 10 exponent.natAbs)) = some exponent := by
  have hd : ∀ c ∈ List.replicate zeros '0' ++ Nat.toDigits 10 exponent.natAbs, c.isDigit := fun c hc =>
    (List.mem_append.1 hc).elim isDigit_of_mem_replicate isDigit_of_mem_toDigits
  have hn := natural?_eq hd (by simp [Nat.toDigits_ne_nil])
  rw [Nat.ofDigitChars_append, Nat.ofDigitChars_replicate_zero, Nat.mul_zero,
    Nat.ofDigitChars_ten_toDigits] at hn
  split_ifs with h
  · simp [readExponent?, splitSign, hn, abs_of_neg h]
  · simp [readExponent?, splitSign, hn, abs_of_nonneg (not_lt.1 h)]

theorem readDecimal?_scientific {digits : List Char} (exponent : ℤ) (hd : ∀ c ∈ digits, c.isDigit)
    (hne : digits ≠ []) :
    ∃ d, readDecimal? (scientific digits exponent) = some d ∧
      d.value = Nat.ofDigitChars 10 digits 0 * 10 ^ (exponent + 1 - digits.length) := by
  obtain ⟨c, fraction, rfl⟩ := List.exists_cons_of_ne_nil hne
  set power := List.replicate (2 - (Nat.toDigits 10 exponent.natAbs).length) '0' ++ Nat.toDigits 10 exponent.natAbs
  set tail := 'e' :: (if exponent < 0 then '-' else '+') :: power
  have hexp : readExponent? tail = some exponent := readExponent?_power exponent _
  have hstop : StopsDigits tail := rfl
  have hw : ∀ d ∈ [c], d.isDigit := fun d hmem => hd d (by simp_all)
  by_cases hf : fraction = []
  · subst hf
    have hr := readDecimal?_whole hw (by simp) hstop (by simp [tail]) hexp
    refine ⟨_, by simpa [scientific] using hr, by simp [Decimal.value]⟩
  · have hfraction : ∀ d ∈ fraction, d.isDigit := fun d hmem => hd d (List.mem_cons_of_mem c hmem)
    have hr := readDecimal?_point hw hfraction (by simp) hstop hexp
    refine ⟨_, by simpa [scientific, hf] using hr, ?_⟩
    have hlen : exponent - fraction.length = exponent + 1 - (c :: fraction).length := by
      rw [List.length_cons]
      omega
    rw [Decimal.value, hlen]

/-- Without its last zeros a numeral is shorter by a power of ten. -/
theorem exists_stripped (n : ℕ) (h : n ≠ 0) : ∃ digits zeros, digits ≠ [] ∧ (∀ c ∈ digits, c.isDigit) ∧
    ((Nat.toDigits 10 n).reverse.dropWhile (· == '0')).reverse = digits ∧
    (Nat.toDigits 10 n).length = digits.length + zeros ∧ n = Nat.ofDigitChars 10 digits 0 * 10 ^ zeros := by
  set all := Nat.toDigits 10 n
  set digits := (all.reverse.dropWhile (· == '0')).reverse with hdigits
  set tail := (all.reverse.takeWhile (· == '0')).reverse with htail
  have hall : all = digits ++ tail := by
    rw [hdigits, htail, ← List.reverse_append, List.takeWhile_append_dropWhile, List.reverse_reverse]
  have hzeros : tail = List.replicate tail.length '0' := by
    refine List.eq_replicate_of_mem fun c hc => ?_
    simpa using List.mem_takeWhile_imp (List.mem_reverse.1 hc)
  have hn : n = Nat.ofDigitChars 10 digits 0 * 10 ^ tail.length := by
    conv_lhs => rw [← Nat.ofDigitChars_ten_toDigits (n := n), show Nat.toDigits 10 n = all from rfl, hall, hzeros]
    rw [Nat.ofDigitChars_append, Nat.ofDigitChars_replicate_zero, Nat.mul_comm]
  refine ⟨digits, tail.length, ?_, ?_, rfl, ?_, hn⟩
  · intro he
    rw [he, Nat.ofDigitChars_nil, Nat.zero_mul] at hn
    exact h hn
  · intro c hc
    have hmem : c ∈ all := hall ▸ List.mem_append_left tail hc
    exact isDigit_of_mem_toDigits hmem
  · rw [hall, List.length_append]

/-- A written decimal reads as a decimal of the same value. -/
theorem readDecimal?_decimalChars {d : Decimal} (h : d.digits ≠ 0) :
    ∃ e, readDecimal? (decimalChars d) = some e ∧ e.value = d.value := by
  obtain ⟨digits, zeros, hne, hd, hstrip, hlen, hn⟩ := exists_stripped d.digits h
  simp only [decimalChars, hstrip]
  set point : ℤ := (Nat.toDigits 10 d.digits).length + d.exponent with hpoint
  have hvalue : d.value = Nat.ofDigitChars 10 digits 0 * 10 ^ (point - digits.length) := by
    have hexp : point - digits.length = zeros + d.exponent := by omega
    rw [hexp, zpow_add₀ (by norm_num), zpow_natCast, Decimal.value]
    conv_lhs => rw [hn]
    push_cast
    ring
  split_ifs
  · obtain ⟨e, he, hv⟩ := readDecimal?_positional point hd hne
    exact ⟨e, he, hv.trans hvalue.symm⟩
  · obtain ⟨e, he, hv⟩ := readDecimal?_scientific (point - 1) hd hne
    rw [Int.sub_add_cancel] at hv
    exact ⟨e, he, hv.trans hvalue.symm⟩

/-! ### The shape of a literal -/

/-- The characters of a written decimal. -/
def IsNumeralChar (c : Char) : Prop := c.isDigit ∨ c ∈ ['.', 'e', '+', '-']

theorem isPlain_of_isNumeralChar {c : Char} (h : IsNumeralChar c) : IsPlain c := by
  rcases h with h | h
  · exact isPlain_of_isDigit h
  · have hall : ∀ c ∈ ['.', 'e', '+', '-'], toAsciiDigit c = c ∧ c ≠ '_' := List.all_iff_forall_prop.1 (by decide)
    exact hall c h

theorem isNumeralChar_of_mem_positional {digits : List Char} {point : ℤ} (hd : ∀ c ∈ digits, c.isDigit) {c : Char}
    (h : c ∈ positional digits point) : IsNumeralChar c := by
  unfold positional at h
  split_ifs at h
  · simp only [List.cons_append, List.mem_cons, List.mem_append] at h
    rcases h with rfl | rfl | h | h
    · exact .inl (by decide)
    · exact .inr (by decide)
    · exact .inl (isDigit_of_mem_replicate h)
    · exact .inl (hd c h)
  · simp only [List.mem_append, List.mem_cons, List.not_mem_nil, or_false] at h
    rcases h with (h | h) | rfl | rfl
    · exact .inl (hd c h)
    · exact .inl (isDigit_of_mem_replicate h)
    · exact .inr (by decide)
    · exact .inl (by decide)
  · simp only [List.mem_append, List.mem_cons] at h
    rcases h with h | rfl | h
    · exact .inl (hd c (List.mem_of_mem_take h))
    · exact .inr (by decide)
    · exact .inl (hd c (List.mem_of_mem_drop h))

theorem isNumeralChar_of_mem_scientific {digits : List Char} {exponent : ℤ} (hd : ∀ c ∈ digits, c.isDigit) {c : Char}
    (h : c ∈ scientific digits exponent) : IsNumeralChar c := by
  simp only [scientific, List.mem_append, List.mem_cons] at h
  rcases h with ((h | h) | rfl | h | h) | h
  · exact .inl (hd c (List.mem_of_mem_take h))
  · split_ifs at h
    · simp at h
    · rcases List.mem_cons.1 h with rfl | h
      · exact .inr (by decide)
      · exact .inl (hd c (List.mem_of_mem_drop h))
  · exact .inr (by decide)
  · split_ifs at h <;> exact h ▸ .inr (by decide)
  · exact .inl (isDigit_of_mem_replicate h)
  · exact .inl (isDigit_of_mem_toDigits h)

theorem isNumeralChar_of_mem_decimalChars {d : Decimal} (h0 : d.digits ≠ 0) {c : Char} (h : c ∈ decimalChars d) :
    IsNumeralChar c := by
  obtain ⟨digits, zeros, hne, hd, hstrip, -, -⟩ := exists_stripped d.digits h0
  simp only [decimalChars, hstrip] at h
  split_ifs at h
  · exact isNumeralChar_of_mem_positional hd h
  · exact isNumeralChar_of_mem_scientific hd h

/-- A written decimal starts with a digit, and holds a point or an exponent. -/
theorem decimalChars_eq_cons {d : Decimal} (h0 : d.digits ≠ 0) :
    ∃ c rest, decimalChars d = c :: rest ∧ c.isDigit ∧ ('.' ∈ rest ∨ 'e' ∈ rest) := by
  obtain ⟨digits, zeros, hne, hd, hstrip, -, -⟩ := exists_stripped d.digits h0
  obtain ⟨c, digits, rfl⟩ := List.exists_cons_of_ne_nil hne
  have hc : c.isDigit := hd c (by simp)
  simp only [decimalChars, hstrip]
  split_ifs
  · unfold positional
    split_ifs with h1 h2
    · exact ⟨'0', _, rfl, by decide, .inl (by simp)⟩
    · exact ⟨c, _, rfl, hc, .inl (by simp)⟩
    · obtain ⟨n, hn⟩ : ∃ n, Int.toNat ((Nat.toDigits 10 d.digits).length + d.exponent) = n + 1 :=
        ⟨_, (Nat.sub_add_cancel (by omega)).symm⟩
      rw [hn]
      exact ⟨c, _, rfl, hc, .inl (by simp)⟩
  · exact ⟨c, _, rfl, hc, .inr (by simp)⟩

/-- The characters of a finite double without its sign. -/
def magnitudeChars (units : ℕ) : List Char :=
  if units = 0 then ['0', '.', '0'] else decimalChars (Decimal.shortest units)

theorem toList_literal_finite (negative : Bool) {units : ℕ} (h : Representable units) :
    (literal (.finite negative units h)).toList = signChars negative ++ magnitudeChars units := by
  rw [literal, String.toList_ofList, magnitudeChars]

theorem isNumeralChar_of_mem_magnitudeChars {units : ℕ} (h : Representable units) {c : Char}
    (hc : c ∈ magnitudeChars units) : IsNumeralChar c := by
  unfold magnitudeChars at hc
  split_ifs at hc with h0
  · have hall : ∀ c ∈ ['0', '.', '0'], c.isDigit ∨ c ∈ ['.', 'e', '+', '-'] := List.all_iff_forall_prop.1 (by decide)
    exact hall c hc
  · exact isNumeralChar_of_mem_decimalChars (Decimal.digits_shortest_ne_zero h h0) hc

theorem magnitudeChars_eq_cons {units : ℕ} (h : Representable units) :
    ∃ c rest, magnitudeChars units = c :: rest ∧ c.isDigit ∧ ('.' ∈ rest ∨ 'e' ∈ rest) := by
  unfold magnitudeChars
  split_ifs with h0
  · exact ⟨'0', _, rfl, by decide, by decide⟩
  · exact decimalChars_eq_cons (Decimal.digits_shortest_ne_zero h h0)

/-! ### Reading a literal -/

theorem readDecimal?_magnitudeChars (negative : Bool) {units : ℕ} (h : Representable units) :
    (readDecimal? (magnitudeChars units)).map (Double.ofDecimal negative) = some (.finite negative units h) := by
  unfold magnitudeChars
  split_ifs with h0
  · subst h0
    rfl
  · obtain ⟨e, he, hv⟩ := readDecimal?_decimalChars (Decimal.digits_shortest_ne_zero h h0)
    obtain ⟨_, hback⟩ := Decimal.readsBack_iff.1 (Decimal.readsBack_shortest h)
    rw [he, Option.map_some, Decimal.ofDecimal_congr negative hv, hback negative]

theorem splitSign_signChars (negative : Bool) {c : Char} {rest : List Char} (h : c.isDigit) :
    splitSign (signChars negative ++ c :: rest) = (negative, c :: rest) := by
  cases negative with
  | true => rfl
  | false =>
    have hm : c ≠ '-' := by rintro rfl; exact absurd h (by decide)
    have hp : c ≠ '+' := by rintro rfl; exact absurd h (by decide)
    exact splitSign.eq_3 (c :: rest) (fun _ he => hm (List.cons.inj he).1) (fun _ he => hp (List.cons.inj he).1)

theorem toLower_of_isDigit {c : Char} (h : c.isDigit) : c.toLower = c := by
  have hc : c.toNat ≤ 57 := (Char.isDigit_iff_toNat.1 h).2
  refine dif_neg fun hu => ?_
  have hlow : 65 ≤ c.toNat := UInt32.le_iff_toNat_le.1 hu.1
  omega

theorem plain?_signChars (negative : Bool) {cs : List Char} (h : ∀ c ∈ cs, IsNumeralChar c) :
    plain? (signChars negative ++ cs) = some (signChars negative ++ cs) := by
  refine plain?_eq fun c hc => isPlain_of_isNumeralChar ?_
  rcases List.mem_append.1 hc with hc | hc
  · cases negative
    · simp [signChars] at hc
    · exact .inr (by simp_all [signChars])
  · exact h c hc

theorem readInteger?_of_splitSign {cs ds digits : List Char} {negative : Bool} (hp : plain? cs = some ds)
    (hs : splitSign ds = (negative, digits)) : readInteger? cs =
      if maxDigits < digits.length then none else (natural? digits).map (Double.signed negative ·) := by
  rw [readInteger?, hp, Option.bind_eq_bind, Option.bind_some, hs]
  dsimp only
  congr 1
  cases natural? digits <;> rfl

/-- Characters that start with a digit are read as a decimal, and as no word, after their sign. -/
theorem readDouble?_of_splitSign {cs ds rest : List Char} {negative : Bool} {c : Char} (hp : plain? cs = some ds)
    (hs : splitSign ds = (negative, c :: rest)) (hc : c.isDigit) :
    readDouble? cs = (readDecimal? (c :: rest)).map (Double.ofDecimal negative) := by
  have hword : ∀ d ∈ ['n', 'i'], ∀ ds, lower (c :: rest) ≠ d :: ds := by
    intro d hd ds he
    rw [lower, List.map_cons, toLower_of_isDigit hc] at he
    obtain ⟨rfl, -⟩ := List.cons.inj he
    simp only [List.mem_cons, List.not_mem_nil, or_false] at hd
    rcases hd with rfl | rfl <;> exact absurd hc (by decide)
  rw [readDouble?, hp]
  simp only [Option.bind_eq_bind, Option.bind_some, hs, beq_iff_eq, hword 'n' (by simp), hword 'i' (by simp),
    Bool.or_eq_true, or_self, if_false]

section Signed

variable (negative : Bool) {c : Char} {rest : List Char} (hc : c.isDigit) (h : ∀ d ∈ c :: rest, IsNumeralChar d)

include hc h

theorem readInteger?_signChars : readInteger? (signChars negative ++ c :: rest) =
    if maxDigits < (c :: rest).length then none else (natural? (c :: rest)).map (Double.signed negative ·) :=
  readInteger?_of_splitSign (plain?_signChars negative h) (splitSign_signChars negative hc)

theorem readDouble?_signChars : readDouble? (signChars negative ++ c :: rest) =
    (readDecimal? (c :: rest)).map (Double.ofDecimal negative) :=
  readDouble?_of_splitSign (plain?_signChars negative h) (splitSign_signChars negative hc) hc

end Signed

theorem readDouble?_literal (x : Double) : readDouble? (literal x).toList = some x := by
  cases x with
  | nan => rfl
  | infinity negative => cases negative <;> rfl
  | finite negative units h =>
    obtain ⟨c, rest, hcons, hc, -⟩ := magnitudeChars_eq_cons h
    have hchars : ∀ d ∈ c :: rest, IsNumeralChar d := fun d hd => isNumeralChar_of_mem_magnitudeChars h (hcons ▸ hd)
    rw [toList_literal_finite, hcons, readDouble?_signChars negative hc hchars, ← hcons,
      readDecimal?_magnitudeChars negative h]

end ScalarScript.Text
