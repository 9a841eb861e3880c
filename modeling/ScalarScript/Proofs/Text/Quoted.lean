import ScalarScript.Text.Quoted
import Mathlib.Data.List.Basic
import Mathlib.Algebra.Ring.Nat

/-! A quotation determines what it quotes, whatever text follows it. Each character's escape can be
read off the front of a text, and none starts with the mark that closes the quotation. -/
namespace ScalarScript.Text

/-! ### Hexadecimal numbers -/

def hexValue (c : Char) : ℕ := if c.isDigit then c.toNat - 48 else c.toNat - 87

def hexNumber (cs : List Char) : ℕ := cs.foldl (fun n c => 16 * n + hexValue c) 0

theorem hexValue_digitChar {d : ℕ} (h : d < 16) : hexValue (Nat.digitChar d) = d := by
  have hall : ∀ d < 16, hexValue (Nat.digitChar d) = d := by decide
  exact hall d h

theorem hexNumber_append_singleton (cs : List Char) (c : Char) :
    hexNumber (cs ++ [c]) = 16 * hexNumber cs + hexValue c := by
  simp [hexNumber]

theorem hexNumber_toDigits (n : ℕ) : hexNumber (Nat.toDigits 16 n) = n := by
  induction n using Nat.strong_induction_on with
  | _ n ih =>
    by_cases h : n < 16
    · rw [Nat.toDigits_of_lt_base h]
      simpa [hexNumber] using hexValue_digitChar h
    · rw [Nat.toDigits_of_base_le (by decide) (by omega), hexNumber_append_singleton, ih _ (by omega),
        hexValue_digitChar (by omega)]
      omega

theorem hexNumber_hex (width n : ℕ) : hexNumber (hex width n) = n := by
  have hzeros : ∀ k, List.foldl (fun n c => 16 * n + hexValue c) 0 (List.replicate k '0') = 0 := by
    intro k
    induction k with
    | zero => rfl
    | succ k ih => simpa [List.replicate_succ, hexValue] using ih
  rw [hex, hexNumber, List.foldl_append, hzeros]
  exact hexNumber_toDigits n

theorem length_hex {width n : ℕ} (hw : 0 < width) (h : n < 16 ^ width) : (hex width n).length = width := by
  have hlen := (Nat.length_toDigits_le_iff (b := 16) (by decide) hw).2 h
  rw [hex, List.length_append, List.length_replicate]
  omega

theorem exists_digit_of_mem_hex {width n : ℕ} {c : Char} (h : c ∈ hex width n) : ∃ d < 16, c = Nat.digitChar d := by
  have hdigits : ∀ n, c ∈ Nat.toDigits 16 n → ∃ d < 16, c = Nat.digitChar d := by
    intro n
    induction n using Nat.strong_induction_on with
    | _ n ih =>
      intro h
      by_cases hn : n < 16
      · rw [Nat.toDigits_of_lt_base hn] at h
        exact ⟨n, hn, List.mem_singleton.1 h⟩
      · rw [Nat.toDigits_of_base_le (by decide) (by omega)] at h
        obtain h | h := List.mem_append.1 h
        · exact ih _ (by omega) h
        · exact ⟨n % 16, by omega, List.mem_singleton.1 h⟩
  obtain h | h := List.mem_append.1 h
  · exact ⟨0, by decide, List.eq_of_mem_replicate h⟩
  · exact hdigits n h

/-! ### Reading an escape -/

/-- Reads a code of the given width off the front. -/
def readCode (width : ℕ) (cs : List Char) : Char × List Char :=
  (Char.ofNat (hexNumber (cs.take width)), cs.drop width)

/-- Reads an escaped or a plain character off the front. -/
def readEscape : List Char → Option (Char × List Char)
  | '\\' :: 'x' :: rest => some (readCode 2 rest)
  | '\\' :: 'u' :: rest => some (readCode 4 rest)
  | '\\' :: 'U' :: rest => some (readCode 8 rest)
  | '\\' :: 'n' :: rest => some ('\n', rest)
  | '\\' :: 'r' :: rest => some ('\r', rest)
  | '\\' :: 't' :: rest => some ('\t', rest)
  | '\\' :: c :: rest => some (c, rest)
  | c :: rest => some (c, rest)
  | [] => none

theorem readCode_hex {width : ℕ} (hw : 0 < width) (c : Char) (h : c.toNat < 16 ^ width) (rest : List Char) :
    readCode width (hex width c.toNat ++ rest) = (c, rest) := by
  have hlen := length_hex hw h
  rw [readCode, List.take_left' hlen, List.drop_left' hlen, hexNumber_hex, Char.ofNat_toNat]

theorem readEscape_escapeCode (c : Char) (rest : List Char) :
    readEscape (escapeCode c.toNat ++ rest) = some (c, rest) := by
  have hc : c.toNat < 16 ^ 8 := c.val.toNat_lt
  unfold escapeCode
  split_ifs with h2 h4
  · exact congrArg some (readCode_hex (by decide) c h2 rest)
  · exact congrArg some (readCode_hex (by decide) c h4 rest)
  · exact congrArg some (readCode_hex (by decide) c hc rest)

/-- The two marks that may close a quotation. -/
def IsMark (mark : Char) : Prop := mark = apostrophe ∨ mark = doubleQuote

theorem isMark_quoteMark (cs : List Char) : IsMark (quoteMark cs) := by
  unfold quoteMark
  split_ifs
  · exact .inr rfl
  · exact .inl rfl

theorem readEscape_escapeChar {mark : Char} (hm : IsMark mark) (c : Char) (rest : List Char) :
    readEscape (escapeChar mark c ++ rest) = some (c, rest) := by
  unfold escapeChar
  split_ifs with h1 h2 h3 h4 h5
  · have hc : c = apostrophe ∨ c = doubleQuote ∨ c = backslash := by
      simp only [Bool.or_eq_true, beq_iff_eq] at h1
      rcases h1 with rfl | rfl
      · exact hm.elim .inl (fun h => .inr (.inl h))
      · exact .inr (.inr rfl)
    rcases hc with rfl | rfl | rfl <;> rfl
  · rw [beq_iff_eq.1 h2]; rfl
  · rw [beq_iff_eq.1 h3]; rfl
  · rw [beq_iff_eq.1 h4]; rfl
  · have hc : c ≠ '\\' := by
      rintro rfl
      simp [backslash] at h1
    simp [readEscape, hc]
  · exact readEscape_escapeCode c rest

/-! ### Escapes in a row -/

/-- An escape that can be read back and does not start with the closing mark. -/
structure Escapes (mark : Char) (escape : Char → List Char) : Prop where
  read : ∀ c rest, readEscape (escape c ++ rest) = some (c, rest)
  head : ∀ c, ∃ d tail, escape c = d :: tail ∧ d ≠ mark

theorem Escapes.flatMap_inj {mark : Char} {escape : Char → List Char} (he : Escapes mark escape)
    {cs ds r s : List Char} (h : cs.flatMap escape ++ mark :: r = ds.flatMap escape ++ mark :: s) :
    cs = ds ∧ r = s := by
  induction cs generalizing ds with
  | nil =>
    cases ds with
    | nil => exact ⟨rfl, (List.cons.inj h).2⟩
    | cons d ds =>
      obtain ⟨e, tail, htail, hne⟩ := he.head d
      rw [List.flatMap_cons, htail] at h
      exact absurd (List.cons.inj h).1.symm hne
  | cons c cs ih =>
    cases ds with
    | nil =>
      obtain ⟨e, tail, htail, hne⟩ := he.head c
      rw [List.flatMap_cons, htail] at h
      exact absurd (List.cons.inj h).1 hne
    | cons d ds =>
      rw [List.flatMap_cons, List.flatMap_cons, List.append_assoc, List.append_assoc] at h
      have hread := congrArg readEscape h
      rw [he.read, he.read, Option.some.injEq, Prod.mk.injEq] at hread
      obtain ⟨rfl, hs⟩ := ih hread.2
      exact ⟨by rw [hread.1], hs⟩

theorem exists_escapeCode (n : ℕ) : ∃ tail, escapeCode n = backslash :: tail := by
  unfold escapeCode
  split_ifs <;> exact ⟨_, rfl⟩

theorem backslash_ne {mark : Char} (hm : IsMark mark) : backslash ≠ mark := by
  rcases hm with rfl | rfl <;> decide

theorem escapes_escapeChar {mark : Char} (hm : IsMark mark) : Escapes mark (escapeChar mark) where
  read := readEscape_escapeChar hm
  head c := by
    unfold escapeChar
    split_ifs with h1 h2 h3 h4 h5
    · exact ⟨_, _, rfl, backslash_ne hm⟩
    · exact ⟨_, _, rfl, backslash_ne hm⟩
    · exact ⟨_, _, rfl, backslash_ne hm⟩
    · exact ⟨_, _, rfl, backslash_ne hm⟩
    · refine ⟨c, [], rfl, ?_⟩
      rintro rfl
      simp at h1
    · obtain ⟨tail, ht⟩ := exists_escapeCode c.toNat
      exact ⟨_, tail, ht, backslash_ne hm⟩

/-- The escape of a byte's character: beyond ASCII always by its code. -/
def escapeByte (mark c : Char) : List Char := if c.toNat < 0x7f then escapeChar mark c else escapeCode c.toNat

theorem escapes_escapeByte {mark : Char} (hm : IsMark mark) : Escapes mark (escapeByte mark) where
  read c rest := by
    unfold escapeByte
    split_ifs
    · exact readEscape_escapeChar hm c rest
    · exact readEscape_escapeCode c rest
  head c := by
    unfold escapeByte
    split_ifs
    · exact (escapes_escapeChar hm).head c
    · obtain ⟨tail, ht⟩ := exists_escapeCode c.toNat
      exact ⟨_, tail, ht, backslash_ne hm⟩

/-! ### Quotations -/

theorem quoteChars_append_inj {cs ds r s : List Char} (h : quoteChars cs ++ r = quoteChars ds ++ s) :
    cs = ds ∧ r = s := by
  simp only [quoteChars, List.cons_append, List.append_assoc, List.cons.injEq] at h
  obtain ⟨hmark, h⟩ := h
  rw [← hmark] at h
  exact (escapes_escapeChar (isMark_quoteMark cs)).flatMap_inj h

/-- The characters of a quotation of bytes after the `b`. -/
def quoteByteChars (bytes : List UInt8) : List Char :=
  let cs := bytes.map fun b => Char.ofNat b.toNat
  quoteMark cs :: cs.flatMap (escapeByte (quoteMark cs)) ++ [quoteMark cs]

theorem toList_quoteBytes (bytes : List UInt8) : (quoteBytes bytes).toList = 'b' :: quoteByteChars bytes := by
  rw [quoteBytes, String.toList_ofList]
  rfl

theorem byteChar_injective : Function.Injective fun b : UInt8 => Char.ofNat b.toNat := by
  have hn : ∀ n < 256, (Char.ofNat n).toNat = n := fun n h => by
    have hv : n.isValidChar := .inl (by omega)
    rw [Char.ofNat, dif_pos hv]
    rfl
  intro a b h
  have := congrArg Char.toNat h
  dsimp only at this
  rw [hn _ a.toNat_lt, hn _ b.toNat_lt] at this
  exact UInt8.toNat_inj.1 this

theorem quoteByteChars_append_inj {as bs : List UInt8} {r s : List Char}
    (h : quoteByteChars as ++ r = quoteByteChars bs ++ s) : as = bs ∧ r = s := by
  simp only [quoteByteChars, List.cons_append, List.append_assoc, List.cons.injEq] at h
  obtain ⟨hmark, h⟩ := h
  rw [← hmark] at h
  obtain ⟨hmap, hs⟩ := (escapes_escapeByte (isMark_quoteMark _)).flatMap_inj h
  exact ⟨byteChar_injective.list_map hmap, hs⟩

end ScalarScript.Text
