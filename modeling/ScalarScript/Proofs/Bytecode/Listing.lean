import ScalarScript.Bytecode.Listing
import ScalarScript.Proofs.Bytecode.Stream
import ScalarScript.Proofs.Bytecode.Table

/-! Listings against decoding. The lines of the code are those of the decoded instructions, in order, and
a line determines the position, the opcode and the index that it shows. A cut push at the end of the code
is what no listing has an index for. -/
namespace ScalarScript

/-! ### Fields of a line -/

namespace Text

variable {c : Char} {u v r s : List Char}

theorem takeWhile_field (hu : c ∉ u) (hr : ∀ d ∈ r.head?, d = c) : (u ++ r).takeWhile (· != c) = u := by
  rw [List.takeWhile_append_of_pos fun d hd => by
    simpa using fun he : d = c => hu (he ▸ hd)]
  cases r with
  | nil => simp
  | cons d r =>
    obtain rfl : d = c := hr d rfl
    simp

/-- What stands before a separator, or before the end, is read off. -/
theorem field_inj (hu : c ∉ u) (hv : c ∉ v) (hr : ∀ d ∈ r.head?, d = c) (hs : ∀ d ∈ s.head?, d = c)
    (h : u ++ r = v ++ s) : u = v ∧ r = s := by
  obtain rfl : u = v := by rw [← takeWhile_field hu hr, h, takeWhile_field hv hs]
  exact ⟨rfl, List.append_cancel_left h⟩

end Text

open Text

theorem toList_positionText (n : ℕ) :
    (positionText n).toList = List.replicate (4 - (Nat.toDigits 10 n).length) '0' ++ Nat.toDigits 10 n := by
  simp [positionText]

theorem positionText_inj {m n : ℕ} (h : (positionText m).toList = (positionText n).toList) : m = n := by
  have hread (k : ℕ) : Nat.ofDigitChars 10 (positionText k).toList 0 = k := by
    rw [toList_positionText, Nat.ofDigitChars_append, Nat.ofDigitChars_replicate_zero, Nat.mul_zero,
      Nat.ofDigitChars_ten_toDigits]
  rw [← hread m, h, hread]

theorem colon_notMem_positionText (n : ℕ) : ':' ∉ (positionText n).toList := by
  intro h
  rw [toList_positionText, List.mem_append] at h
  have hd : ':'.isDigit := h.elim isDigit_of_mem_replicate isDigit_of_mem_toDigits
  exact absurd hd (by decide)

/-! ### Names of opcodes -/

namespace Opcode

theorem ofName?_name (op : Opcode) : ofName? op.name = some op := by
  cases op with
  | binary op => cases op <;> decide
  | _ => decide

/-- A name has no blanks or line ends, and is told from an unknown byte's name by its first three letters. -/
theorem plain_name (op : Opcode) : (∀ c ∈ op.name.toList, ' ' < c) ∧ op.name.toList.take 3 ≠ ['O', 'P', '_'] := by
  cases op with
  | binary op => cases op <;> exact ⟨List.all_iff_forall_prop.1 (by decide), by decide⟩
  | _ => exact ⟨List.all_iff_forall_prop.1 (by decide), by decide⟩

end Opcode

/-- The name of a byte that is no opcode. -/
def unknownChars (byte : UInt8) : List Char := 'O' :: 'P' :: '_' :: (hex 2 byte.toNat).map Char.toUpper

theorem toList_opcodeText (byte : UInt8) :
    (opcodeText byte).toList = (Opcode.ofByte? byte).elim (unknownChars byte) fun op => op.name.toList := by
  rw [opcodeText]
  cases Opcode.ofByte? byte with
  | none => simp [unknownChars]
  | some op => rfl

theorem unknownChars_inj {a b : UInt8} (h : unknownChars a = unknownChars b) : a = b := by
  have hlower (n : ℕ) : ((hex 2 n).map Char.toUpper).map Char.toLower = hex 2 n := by
    have hall : ∀ d < 16, (Nat.digitChar d).toUpper.toLower = Nat.digitChar d := by decide
    rw [List.map_map]
    refine (List.map_congr_left fun c hc => ?_).trans (List.map_id _)
    obtain ⟨d, hd, rfl⟩ := exists_digit_of_mem_hex hc
    exact hall d hd
  have hhex : hex 2 a.toNat = hex 2 b.toNat := by
    simp only [unknownChars, List.cons.injEq, true_and] at h
    rw [← hlower, h, hlower]
  rw [← UInt8.toNat_inj, ← hexNumber_hex 2 a.toNat, hhex, hexNumber_hex]

theorem blank_lt_of_mem_unknownChars {byte : UInt8} {c : Char} (h : c ∈ unknownChars byte) : ' ' < c := by
  simp only [unknownChars, List.mem_cons, List.mem_map] at h
  obtain rfl | rfl | rfl | ⟨c, hc, rfl⟩ := h
  · decide
  · decide
  · decide
  · obtain ⟨d, hd, rfl⟩ := exists_digit_of_mem_hex hc
    have hall : ∀ d < 16, ' ' < (Nat.digitChar d).toUpper := by decide
    exact hall d hd

theorem blank_lt_of_mem_opcodeText {byte : UInt8} {c : Char} (h : c ∈ (opcodeText byte).toList) : ' ' < c := by
  rw [toList_opcodeText] at h
  cases ho : Opcode.ofByte? byte with
  | none =>
    rw [ho] at h
    exact blank_lt_of_mem_unknownChars h
  | some op =>
    rw [ho] at h
    exact op.plain_name.1 c h

theorem blank_notMem_opcodeText (byte : UInt8) : ' ' ∉ (opcodeText byte).toList :=
  fun h => lt_irrefl _ (blank_lt_of_mem_opcodeText h)

theorem opcodeText_inj {a b : UInt8} (h : (opcodeText a).toList = (opcodeText b).toList) : a = b := by
  rw [toList_opcodeText, toList_opcodeText] at h
  cases ha : Opcode.ofByte? a with
  | none =>
    cases hb : Opcode.ofByte? b with
    | none => exact unknownChars_inj (by simpa only [ha, hb, Option.elim] using h)
    | some op =>
      simp only [ha, hb, Option.elim] at h
      exact absurd (by rw [← h]; rfl) op.plain_name.2
  | some op =>
    cases hb : Opcode.ofByte? b with
    | none =>
      simp only [ha, hb, Option.elim] at h
      exact absurd (by rw [h]; rfl) op.plain_name.2
    | some other =>
      simp only [ha, hb, Option.elim, String.toList_inj] at h
      have ho := Opcode.ofName?_name op
      rw [h, Opcode.ofName?_name] at ho
      rw [← Opcode.toByte_of_ofByte? ha, ← Opcode.toByte_of_ofByte? hb, Option.some.inj ho]

/-! ### Lines -/

namespace Instruction

/-- What a line shows after the opcode. -/
def operandText (i : Instruction) : String := i.index?.elim "" fun index => " " ++ toString index

/-- The line of an instruction and its position. -/
def line (entry : ℕ × Instruction) : String :=
  positionText entry.1 ++ ": " ++ opcodeText entry.2.opcode ++ entry.2.operandText

theorem toList_line (entry : ℕ × Instruction) :
    (line entry).toList = (positionText entry.1).toList ++
      (':' :: ' ' :: ((opcodeText entry.2.opcode).toList ++ entry.2.operandText.toList)) := by
  simp [line]

theorem head_operandText (i : Instruction) : ∀ c ∈ i.operandText.toList.head?, c = ' ' := by
  rw [operandText]
  cases i.index? <;> simp

theorem operandText_inj {i j : Instruction} (h : i.operandText.toList = j.operandText.toList) :
    i.index? = j.index? := by
  rw [operandText, operandText] at h
  cases hi : i.index? <;> cases hj : j.index? <;>
    simp only [hi, hj, Option.elim, String.toList_append, String.toList_empty] at h
  · rfl
  · simp at h
  · simp at h
  · rw [Nat.toString_eq_repr, Nat.toString_eq_repr, Nat.toList_repr, Nat.toList_repr] at h
    rw [toDigits_inj (List.append_cancel_left h)]

/-- A line determines the position, the opcode and the index that it shows. -/
theorem line_inj {a b : ℕ × Instruction} (h : line a = line b) :
    a.1 = b.1 ∧ a.2.opcode = b.2.opcode ∧ a.2.index? = b.2.index? := by
  have hl := congrArg String.toList h
  rw [toList_line, toList_line] at hl
  obtain ⟨hp, hl⟩ := field_inj (colon_notMem_positionText _) (colon_notMem_positionText _) (by simp) (by simp) hl
  have hrest := (List.cons.inj (List.cons.inj hl).2).2
  obtain ⟨ho, hi⟩ := field_inj (blank_notMem_opcodeText _) (blank_notMem_opcodeText _) (head_operandText _)
    (head_operandText _) hrest
  exact ⟨positionText_inj hp, opcodeText_inj ho, operandText_inj hi⟩

end Instruction

/-! ### Lines of code -/

open Instruction

theorem codeLines_of_not_push {byte : UInt8} (h : byte ≠ Opcode.pushConst.toByte) (start : ℕ) (rest : List UInt8) :
    codeLines start (byte :: rest) = do
      let lines ← codeLines (start + 1) rest
      return (positionText start ++ ": " ++ opcodeText byte) :: lines := by
  rw [codeLines.eq_def]
  exact if_neg h

theorem codeLines_bytes_append {i : Instruction} (h : i.Whole) (start : ℕ) (rest : List UInt8) :
    codeLines start (i.bytes ++ rest) = do
      let lines ← codeLines (start + i.bytes.length) rest
      return line (start, i) :: lines := by
  cases hp : i.is .pushConst with
  | true =>
    obtain ⟨high, low, rfl⟩ := exists_operands_of_push h hp
    change codeLines start (_ :: high :: low :: rest) = _
    rw [codeLines, if_pos rfl, line, operandText]
    simp only [String.append_assoc]
    rfl
  | false =>
    obtain ⟨byte, operands⟩ := i
    obtain rfl : operands = [] := by simpa [Whole, hp] using h
    have hb : byte ≠ Opcode.pushConst.toByte := by simpa [Instruction.is] using hp
    have hl : line (start, ⟨byte, []⟩) = positionText start ++ ": " ++ opcodeText byte := String.append_empty
    rw [hl]
    exact codeLines_of_not_push hb start rest

theorem codeLines_bytes_of_cut {i : Instruction} (h : i.Cut) (start : ℕ) :
    codeLines start i.bytes = .error .indexOutOfRange := by
  obtain ⟨byte, operands⟩ := i
  obtain rfl : byte = Opcode.pushConst.toByte := is_iff.1 h.1
  match operands, h.2 with
  | [], _ | [_], _ => rfl

/-- The last instruction is a push without all its operand bytes. -/
def EndsCut (entries : List (ℕ × Instruction)) : Prop := ∃ entry, entries.getLast? = some entry ∧ entry.2.Cut

theorem not_endsCut_nil : ¬EndsCut [] := by simp [EndsCut]

theorem endsCut_cons {entry : ℕ × Instruction} (h : entry.2.Whole) {rest : List (ℕ × Instruction)} :
    EndsCut (entry :: rest) ↔ EndsCut rest := by
  cases rest with
  | nil => simp [EndsCut, h.not_cut]
  | cons next rest => simp [EndsCut]

theorem not_endsCut_assemble {instructions : List Instruction} (h : ∀ i ∈ instructions, i.Whole) (start : ℕ) :
    ¬EndsCut (decodeFrom start (assemble instructions)) := by
  rintro ⟨entry, hl, hc⟩
  have hm : entry.2 ∈ (decodeFrom start (assemble instructions)).map Prod.snd :=
    List.mem_map_of_mem (List.mem_of_getLast? hl)
  rw [map_decodeFrom, decode_assemble (Stream.of_whole h)] at hm
  exact (h _ hm).not_cut hc

/-- Only the last instruction can be cut. -/
theorem getLast?_of_cut {start : ℕ} {code : List UInt8} {entry : ℕ × Instruction}
    (hm : entry ∈ decodeFrom start code) (hc : entry.2.Cut) : (decodeFrom start code).getLast? = some entry := by
  induction code using code_induction generalizing start with
  | nil => cases hm
  | cut i h =>
    rw [decodeFrom_bytes_of_cut h] at hm ⊢
    rw [List.mem_singleton.1 hm]
    rfl
  | cons i rest h ih =>
    rw [decodeFrom_bytes_append h] at hm ⊢
    obtain rfl | hm := List.mem_cons.1 hm
    · exact absurd hc h.not_cut
    · rw [List.getLast?_cons, ih hm]
      rfl

/-- The lines of the code are those of its decoded instructions, unless the last of them is cut. -/
theorem codeLines_cases (start : ℕ) (code : List UInt8) :
    EndsCut (decodeFrom start code) ∧ codeLines start code = .error .indexOutOfRange ∨
      ¬EndsCut (decodeFrom start code) ∧ codeLines start code = .ok ((decodeFrom start code).map line) := by
  induction code using code_induction generalizing start with
  | nil => exact .inr ⟨not_endsCut_nil, rfl⟩
  | cut i h =>
    rw [decodeFrom_bytes_of_cut h]
    exact .inl ⟨⟨_, rfl, h⟩, codeLines_bytes_of_cut h start⟩
  | cons i rest h ih =>
    rw [decodeFrom_bytes_append h, endsCut_cons h, codeLines_bytes_append h]
    obtain ⟨hc, hl⟩ | ⟨hc, hl⟩ := ih (start + i.bytes.length) <;> rw [hl]
    · exact .inl ⟨hc, rfl⟩
    · exact .inr ⟨hc, rfl⟩

/-! ### Listings -/

theorem exists_constantLine {c : Constant} (h : c.HasKey) (index : ℕ) : ∃ line, constantLine index c = .ok line := by
  obtain ⟨text, ht⟩ := Constant.hasKey_iff.1 h
  exact ⟨_, by rw [constantLine, Constant.inspect, ht]; rfl⟩

theorem exists_tableLines (cs : List Constant) (h : Keyed cs) :
    ∃ lines, (cs.zipIdx.mapM fun (c, index) => constantLine index c) = .ok lines := by
  refine exists_mapM fun entry hm => ?_
  exact exists_constantLine (h entry.1 (List.fst_mem_of_mem_zipIdx hm)) entry.2

theorem constantLine_eq_error {index : ℕ} {c : Constant} {fault : Fault} (h : constantLine index c = .error fault) :
    fault = .numeralTooLong := by
  obtain h | ⟨text, -, h⟩ := bind_eq_error_iff.1 h
  · obtain h | ⟨value, -, h⟩ := bind_eq_error_iff.1 h
    · exact Native.inspect_eq_error h
    · cases h
  · cases h

namespace Chunk

/-- A listing shows the decoded instructions, then the table. -/
theorem listing_eq_ok {chunk : Chunk} {text : String} (h : chunk.listing = .ok text) :
    ∃ entries, text = "\n".intercalate ((decodeFrom 0 chunk.code).map line ++ "-- constants --" :: entries) := by
  obtain ⟨lines, hl, h⟩ := bind_eq_ok_iff.1 h
  obtain ⟨entries, -, h⟩ := bind_eq_ok_iff.1 h
  obtain ⟨-, he⟩ | ⟨-, he⟩ := codeLines_cases 0 chunk.code <;> cases hl.symm.trans he
  cases h
  exact ⟨entries, rfl⟩

/-- Code that does not end in a cut push, over a table that can be written, has a listing. -/
theorem exists_listing {chunk : Chunk} (hk : Keyed chunk.constants) (hc : ¬EndsCut (decodeFrom 0 chunk.code)) :
    ∃ text, chunk.listing = .ok text := by
  obtain ⟨entries, he⟩ := exists_tableLines chunk.constants hk
  have hl := ((codeLines_cases 0 chunk.code).resolve_left fun h => hc h.1).2
  exact ⟨_, by rw [listing, hl, he]; rfl⟩

/-- No listing reads past the end of the code, but for one of a cut push. -/
theorem listing_eq_indexOutOfRange_iff {chunk : Chunk} :
    chunk.listing = .error .indexOutOfRange ↔ EndsCut (decodeFrom 0 chunk.code) := by
  obtain ⟨hc, hl⟩ | ⟨hc, hl⟩ := codeLines_cases 0 chunk.code
  · exact iff_of_true (by rw [listing, hl]; rfl) hc
  · refine iff_of_false (fun h => ?_) hc
    obtain h | ⟨lines, -, h⟩ := bind_eq_error_iff.1 h
    · cases hl.symm.trans h
    · obtain h | ⟨entries, -, h⟩ := bind_eq_error_iff.1 h
      · obtain ⟨entry, -, he⟩ := exists_of_mapM_eq_error h
        cases constantLine_eq_error he
      · cases h

end Chunk

/-- A listing shows the decoded instructions, a line for each, where a line determines what it shows. It is
refused for want of an index just if the last instruction is cut, and otherwise only for a constant that cannot
be written. -/
structure Chunk.ListsDecoding (chunk : Chunk) : Prop where
  lines : ∀ text, chunk.listing = .ok text →
    ∃ entries, text = "\n".intercalate ((decodeFrom 0 chunk.code).map line ++ "-- constants --" :: entries)
  legible : ∀ a b, line a = line b → a.1 = b.1 ∧ a.2.opcode = b.2.opcode ∧ a.2.index? = b.2.index?
  refused : chunk.listing = .error .indexOutOfRange ↔ EndsCut (decodeFrom 0 chunk.code)
  returns : Keyed chunk.constants → ¬EndsCut (decodeFrom 0 chunk.code) → ∃ text, chunk.listing = .ok text

theorem Chunk.listsDecoding (chunk : Chunk) : chunk.ListsDecoding where
  lines _ h := listing_eq_ok h
  legible _ _ h := line_inj h
  refused := listing_eq_indexOutOfRange_iff
  returns := exists_listing

end ScalarScript
