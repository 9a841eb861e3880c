import ScalarScript.Proofs.Literal

/-! Texts of one line. Lines without line ends can be told apart when they are joined. Literals are such lines,
whatever they quote: a line end is escaped in a text as well as in bytes. -/
namespace ScalarScript

/-- No line ends here. -/
def OneLine (cs : List Char) : Prop := '\n' ∉ cs

@[simp] theorem oneLine_nil : OneLine [] := List.not_mem_nil

@[simp] theorem oneLine_append {cs ds : List Char} : OneLine (cs ++ ds) ↔ OneLine cs ∧ OneLine ds := by
  rw [OneLine, List.mem_append, not_or]
  rfl

@[simp] theorem oneLine_cons {c : Char} {cs : List Char} : OneLine (c :: cs) ↔ c ≠ '\n' ∧ OneLine cs := by
  rw [OneLine, List.mem_cons, not_or, ne_comm]
  rfl

/-- Joined lines determine the lines. -/
theorem lines_inj {lines others : List String} (hl : ∀ line ∈ lines, OneLine line.toList)
    (ho : ∀ line ∈ others, OneLine line.toList) (hln : lines ≠ []) (hon : others ≠ [])
    (h : "\n".intercalate lines = "\n".intercalate others) : lines = others := by
  have hsplit (ls : List String) (hls : ∀ line ∈ ls, OneLine line.toList) (hne : ls ≠ []) :
      ("\n".intercalate ls).toList.splitOn '\n' = ls.map String.toList := by
    rw [String.toList_intercalate]
    exact List.splitOn_intercalate '\n' (List.forall_mem_map.2 hls) (by simpa using hne)
  refine List.map_injective_iff.2 (fun s t => String.toList_inj.1) ?_
  rw [← hsplit lines hl hln, h, hsplit others ho hon]

theorem oneLine_of_isDigit {cs : List Char} (h : ∀ c ∈ cs, c.isDigit) : OneLine cs :=
  fun hm => absurd (h _ hm) (by decide)

/-! ### Escapes and quotations -/

namespace Text

variable {mark : Char}

theorem IsMark.ne_newline (hm : IsMark mark) : mark ≠ '\n' := by
  rcases hm with rfl | rfl <;> decide

theorem oneLine_hex (width n : ℕ) : OneLine (hex width n) := by
  intro h
  obtain ⟨d, hd, he⟩ := exists_digit_of_mem_hex h
  have hall : ∀ d < 16, '\n' ≠ Nat.digitChar d := by decide
  exact hall d hd he

theorem oneLine_escapeCode (n : ℕ) : OneLine (escapeCode n) := by
  unfold escapeCode
  split_ifs <;> simp [oneLine_hex, backslash]

theorem oneLine_escapeChar (hm : IsMark mark) (c : Char) : OneLine (escapeChar mark c) := by
  unfold escapeChar
  split_ifs with hmark hnewline
  · have hc : c ≠ '\n' := by
      rintro rfl
      rcases Bool.or_eq_true_iff.1 hmark with he | he
      · exact hm.ne_newline (beq_iff_eq.1 he).symm
      · exact absurd he (by decide)
    simp [hc, backslash]
  · simp [backslash]
  · simp [backslash]
  · simp [backslash]
  · simpa using hnewline
  · exact oneLine_escapeCode c.toNat

theorem oneLine_escapeByte (hm : IsMark mark) (c : Char) : OneLine (escapeByte mark c) := by
  unfold escapeByte
  split_ifs
  · exact oneLine_escapeChar hm c
  · exact oneLine_escapeCode c.toNat

theorem oneLine_flatMap {escape : Char → List Char} (h : ∀ c, OneLine (escape c)) (cs : List Char) :
    OneLine (cs.flatMap escape) := by
  intro hm
  obtain ⟨c, -, hc⟩ := List.mem_flatMap.1 hm
  exact h c hc

theorem oneLine_quoteChars (cs : List Char) : OneLine (quoteChars cs) := by
  have hm := isMark_quoteMark cs
  simp [quoteChars, hm.ne_newline, oneLine_flatMap (oneLine_escapeChar hm)]

theorem oneLine_quote (s : String) : OneLine (quote s).toList := by
  rw [quote, String.toList_ofList]
  exact oneLine_quoteChars s.toList

theorem oneLine_quoteByteChars (bytes : List UInt8) : OneLine (quoteByteChars bytes) := by
  have hm := isMark_quoteMark (bytes.map fun b => Char.ofNat b.toNat)
  simp [quoteByteChars, hm.ne_newline, oneLine_flatMap (oneLine_escapeByte hm)]

end Text

/-! ### Literals -/

theorem Origin.oneLine_name (o : Origin) : OneLine o.name.toList := by
  cases o <;> simp [Origin.name]

theorem Category.oneLine_name (c : Category) : OneLine c.name.toList := by
  cases c <;> simp [Category.name]

theorem oneLine_intercalate {parts : List String} (h : ∀ part ∈ parts, OneLine part.toList) :
    OneLine (", ".intercalate parts).toList := by
  induction parts with
  | nil => simp
  | cons part parts ih =>
    obtain ⟨hpart, hparts⟩ := List.forall_mem_cons.1 h
    cases parts with
    | nil => simpa using hpart
    | cons next parts =>
      rw [String.intercalate_cons_cons, String.toList_append, oneLine_append]
      exact ⟨by simpa using hpart, ih hparts⟩

namespace Native

attribute [local irreducible] Text.maxDigits

theorem oneLine_of_isAtom {x : Native} {s : String} (hx : x.IsAtom) (h : x.inspect = .ok s) : OneLine s.toList := by
  intro hc
  rcases mem_of_isAtom hx h hc with hd | hw
  · exact absurd hd (by decide)
  · exact absurd hw (by decide)

theorem oneLine_ofScalar {p : Scalar} {s : String} (h : (ofScalar p).inspect = .ok s) : OneLine s.toList := by
  rcases ofScalar_cases p with ⟨w, hp⟩ | hp
  · rw [hp] at h
    cases h
    exact Text.oneLine_quote w
  · exact oneLine_of_isAtom hp h

mutual

/-- A literal has no line end, whatever it quotes. -/
theorem oneLine_inspect : ∀ {x : Native} {s : String}, x.inspect = .ok s → OneLine s.toList
  | none, _, h => oneLine_of_isAtom (x := none) trivial h
  | bool b, _, h => oneLine_of_isAtom (x := bool b) trivial h
  | int n, _, h => oneLine_of_isAtom (x := int n) trivial h
  | double x, _, h => oneLine_of_isAtom (x := double x) trivial h
  | string w, _, h => by
    cases h
    exact Text.oneLine_quote w
  | bytes bs, _, h => by
    cases h
    simp [Text.toList_quoteBytes, Text.oneLine_quoteByteChars]
  | list items, _, h => by
    obtain ⟨parts, hp, hs⟩ := toList_of_inspect_list h
    rw [hs, oneLine_cons, oneLine_append]
    exact ⟨by decide, oneLine_intercalate (oneLine_inspectAll hp), by simp⟩
  | value v, _, h => by
    obtain ⟨payload, hp, hs⟩ := toList_of_inspect_value h
    simp [hs, oneLine_ofScalar hp, v.origin.oneLine_name, v.category.oneLine_name]

theorem oneLine_inspectAll : ∀ {items : List Native} {parts : List String}, inspectAll items = .ok parts →
    ∀ part ∈ parts, OneLine part.toList
  | [], _, h => by
    cases h
    exact List.forall_mem_nil _
  | _ :: _, _, h => by
    obtain ⟨first, others, hf, ho, rfl⟩ := inspectAll_cons h
    exact List.forall_mem_cons.2 ⟨oneLine_inspect hf, oneLine_inspectAll ho⟩

end

end Native
end ScalarScript
