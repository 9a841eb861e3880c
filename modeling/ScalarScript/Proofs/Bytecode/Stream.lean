import Mathlib
import ScalarScript.Bytecode.Instruction

/-! Code and instructions. Decoding loses nothing, and what it yields is a stream: every instruction
is whole, but for a push that the end of the code cuts short. Streams are read back. -/
namespace ScalarScript

namespace Instruction

/-- All operand bytes are there, and no others. -/
def Whole (i : Instruction) : Prop := i.operands.length = if i.is .pushConst then 2 else 0

/-- A push without all its operand bytes. -/
def Cut (i : Instruction) : Prop := i.is .pushConst = true ∧ i.operands.length < 2

@[simp] theorem is_iff {i : Instruction} {op : Opcode} : i.is op = true ↔ i.opcode = op.toByte := by
  simp [Instruction.is]

/-- An opcode without operands. -/
def plain (op : Opcode) : Instruction := ⟨op.toByte, []⟩

theorem whole_push (index : ℕ) : (push index).Whole := rfl

@[simp] theorem is_push (index : ℕ) : (push index).is .pushConst = true := rfl

theorem index?_push {index : ℕ} (h : index < 65536) : (push index).index? = some index :=
  congrArg some (wordOf_wordBytes h)

theorem Whole.not_cut {i : Instruction} (h : i.Whole) : ¬i.Cut := by
  intro hc
  have hl := hc.2
  simp [Whole, hc.1] at h
  omega

theorem index?_of_cut {i : Instruction} (h : i.Cut) : i.index? = none := by
  obtain ⟨byte, operands⟩ := i
  match operands, h.2 with
  | [], _ | [_], _ => rfl

theorem whole_of_not_push {byte : UInt8} (h : byte ≠ Opcode.pushConst.toByte) : Whole ⟨byte, []⟩ := by
  simp [Whole, Instruction.is, h]

theorem plain_is (op op' : Opcode) : (plain op).is op' = decide (op = op') := by
  by_cases h : op = op'
  · simp [h, plain, Instruction.is]
  · have hb : op.toByte ≠ op'.toByte := fun hb => h (by simpa using congrArg Opcode.ofByte? hb)
    simp [h, hb, plain, Instruction.is]

theorem whole_plain {op : Opcode} (h : op ≠ .pushConst) : (plain op).Whole := by
  rw [Whole, plain_is, decide_eq_false h]
  rfl

/-- A whole instruction with a known opcode is that opcode, unless it is a push. -/
theorem eq_plain {i : Instruction} {op : Opcode} (h : i.Whole) (ho : Opcode.ofByte? i.opcode = some op)
    (hop : op ≠ .pushConst) : i = plain op := by
  obtain ⟨byte, operands⟩ := i
  obtain rfl := Opcode.toByte_of_ofByte? ho
  have hp := plain_is op .pushConst
  rw [decide_eq_false hop] at hp
  simp only [Instruction.is, plain] at hp
  obtain rfl : operands = [] := by simpa [Whole, Instruction.is, hp] using h
  rfl

theorem exists_operands_of_push {i : Instruction} (h : i.Whole) (hp : i.is .pushConst = true) :
    ∃ high low, i = ⟨Opcode.pushConst.toByte, [high, low]⟩ := by
  obtain ⟨byte, operands⟩ := i
  simp only [Whole, hp, if_pos] at h
  obtain ⟨high, low, rfl⟩ := List.length_eq_two.1 h
  exact ⟨high, low, by rw [← is_iff.1 hp]⟩

theorem exists_index_of_whole {i : Instruction} (h : i.Whole) (hp : i.is .pushConst = true) :
    ∃ index < 65536, i = push index ∧ i.index? = some index := by
  obtain ⟨high, low, rfl⟩ := exists_operands_of_push h hp
  have hb : wordBytes (wordOf high low) = [high, low] := by
    have hl := low.toNat_lt
    simp only [wordBytes, wordOf, List.cons.injEq, and_true]
    constructor <;> apply UInt8.toNat.inj <;> simp only [UInt8.toNat_ofNat'] <;> have := high.toNat_lt <;> omega
  exact ⟨wordOf high low, wordOf_lt high low, by rw [push, hb], rfl⟩

end Instruction

open Instruction

/-! ### Decoding -/

theorem decodeFrom_of_not_push {byte : UInt8} (h : byte ≠ Opcode.pushConst.toByte) (start : ℕ) (rest : List UInt8) :
    decodeFrom start (byte :: rest) = (start, ⟨byte, []⟩) :: decodeFrom (start + 1) rest := by
  rw [decodeFrom.eq_def]
  exact if_neg h

theorem decodeFrom_of_cut {operands : List UInt8} (h : operands.length < 2) (start : ℕ) :
    decodeFrom start (Opcode.pushConst.toByte :: operands) = [(start, ⟨Opcode.pushConst.toByte, operands⟩)] := by
  match operands, h with
  | [], _ | [_], _ => rfl

theorem length_lt_two {operands : List UInt8}
    (h : ∀ high low rest, operands = high :: low :: rest → False) : operands.length < 2 := by
  match operands with
  | [] | [_] => simp
  | high :: low :: rest => exact absurd rfl (h high low rest)

theorem map_decodeFrom (start : ℕ) (code : List UInt8) : (decodeFrom start code).map Prod.snd = decode code := by
  suffices h : ∀ other, (decodeFrom start code).map Prod.snd = (decodeFrom other code).map Prod.snd from h 0
  fun_induction decodeFrom start code with
  | case1 => intro other; rfl
  | case2 start high low rest ih =>
    intro other
    exact congrArg (_ :: ·) (ih (other + 3))
  | case3 start operands hn =>
    intro other
    simp only [decodeFrom_of_cut (length_lt_two hn), List.map_cons]
  | case4 start byte rest hb ih =>
    intro other
    simp only [decodeFrom_of_not_push hb, List.map_cons, ih (other + 1)]

theorem assemble_append (first second : List Instruction) :
    assemble (first ++ second) = assemble first ++ assemble second :=
  List.flatMap_append

@[simp] theorem decode_nil : decode [] = [] := rfl

theorem decodeFrom_bytes_append {i : Instruction} (h : i.Whole) (start : ℕ) (rest : List UInt8) :
    decodeFrom start (i.bytes ++ rest) = (start, i) :: decodeFrom (start + i.bytes.length) rest := by
  cases hp : i.is .pushConst with
  | true =>
    obtain ⟨high, low, rfl⟩ := exists_operands_of_push h hp
    rfl
  | false =>
    obtain ⟨byte, operands⟩ := i
    obtain rfl : operands = [] := by simpa [Whole, hp] using h
    have hb : byte ≠ Opcode.pushConst.toByte := by simpa [Instruction.is] using hp
    exact decodeFrom_of_not_push hb start rest

theorem decodeFrom_bytes_of_cut {i : Instruction} (h : i.Cut) (start : ℕ) :
    decodeFrom start i.bytes = [(start, i)] := by
  obtain ⟨byte, operands⟩ := i
  obtain rfl : byte = Opcode.pushConst.toByte := is_iff.1 h.1
  exact decodeFrom_of_cut h.2 start

theorem decode_bytes_append {i : Instruction} (h : i.Whole) (rest : List UInt8) :
    decode (i.bytes ++ rest) = i :: decode rest := by
  rw [decode, decodeFrom_bytes_append h, List.map_cons, map_decodeFrom]

theorem decode_bytes_of_cut {i : Instruction} (h : i.Cut) : decode i.bytes = [i] := by
  rw [decode, decodeFrom_bytes_of_cut h]
  rfl

/-! ### Streams -/

inductive Stream : List Instruction → Prop
  | nil : Stream []
  | cut {i : Instruction} (h : i.Cut) : Stream [i]
  | cons {i : Instruction} {rest : List Instruction} (h : i.Whole) (hr : Stream rest) : Stream (i :: rest)

theorem Stream.append {first second : List Instruction} (hf : ∀ i ∈ first, i.Whole) (hs : Stream second) :
    Stream (first ++ second) := by
  induction first with
  | nil => exact hs
  | cons i first ih =>
    exact .cons (hf i List.mem_cons_self) (ih fun j hj => hf j (List.mem_cons_of_mem i hj))

theorem Stream.of_whole {instructions : List Instruction} (h : ∀ i ∈ instructions, i.Whole) :
    Stream instructions := by
  simpa using Stream.append h .nil

theorem stream_decode (code : List UInt8) : Stream (decode code) := by
  rw [← map_decodeFrom 0]
  fun_induction decodeFrom 0 code with
  | case1 => exact .nil
  | case2 start high low rest ih => exact .cons rfl ih
  | case3 start operands hn => exact .cut ⟨rfl, length_lt_two hn⟩
  | case4 start byte rest hb ih => exact .cons (whole_of_not_push hb) ih

theorem assemble_decode (code : List UInt8) : assemble (decode code) = code := by
  rw [← map_decodeFrom 0]
  fun_induction decodeFrom 0 code with
  | case1 => rfl
  | case2 start high low rest ih => simpa [assemble, bytes] using ih
  | case3 => simp [assemble, bytes]
  | case4 start byte rest hb ih => simpa [assemble, bytes] using ih

/-- Induction over code, one instruction after another. -/
@[elab_as_elim]
theorem code_induction {motive : List UInt8 → Prop} (nil : motive []) (cut : ∀ i : Instruction, i.Cut → motive i.bytes)
    (cons : ∀ (i : Instruction) (rest : List UInt8), i.Whole → motive rest → motive (i.bytes ++ rest))
    (code : List UInt8) : motive code := by
  have hstream {instructions : List Instruction} (h : Stream instructions) : motive (assemble instructions) := by
    induction h with
    | nil => exact nil
    | cut h => simpa [assemble] using cut _ h
    | @cons i rest h _ ih => exact cons i (assemble rest) h ih
  exact assemble_decode code ▸ hstream (stream_decode code)

theorem decode_assemble {instructions : List Instruction} (h : Stream instructions) :
    decode (assemble instructions) = instructions := by
  induction h with
  | nil => rfl
  | cut h => simpa [assemble] using decode_bytes_of_cut h
  | @cons i rest h _ ih =>
    change decode (i.bytes ++ assemble rest) = i :: rest
    rw [decode_bytes_append h, ih]

/-- A stream without a cut push consists of whole instructions. -/
theorem Stream.whole {instructions : List Instruction} (h : Stream instructions)
    (hc : ∀ i ∈ instructions, ¬i.Cut) : ∀ i ∈ instructions, i.Whole := by
  induction h with
  | nil => simp
  | cut h => exact absurd h (hc _ List.mem_cons_self)
  | @cons i rest h _ ih =>
    intro j hj
    obtain rfl | hj := List.mem_cons.1 hj
    · exact h
    · exact ih (fun k hk => hc k (List.mem_cons_of_mem _ hk)) j hj

/-- Nothing is cut short where every push has an index. -/
theorem Stream.whole_of_index? {instructions : List Instruction} (h : Stream instructions)
    (hx : ∀ i ∈ instructions, i.is .pushConst = true → i.index? ≠ none) : ∀ i ∈ instructions, i.Whole :=
  h.whole fun i hi hcut => hx i hi hcut.1 (index?_of_cut hcut)

end ScalarScript
