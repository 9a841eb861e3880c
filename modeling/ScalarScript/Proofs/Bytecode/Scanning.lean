import ScalarScript.Proofs.Bytecode.Stream

/-! Decoding as a scan of positions. Each turn takes the opcode at the position, with its operand bytes as far as
the code has them, and goes on behind the place where they would end. The scan is at its end after one turn for
each decoded instruction, and it has taken these. Their bytes are the code again, and instructions that are whole
are decoded from their bytes. -/
namespace ScalarScript

open Instruction

/-- How many operand bytes an opcode asks for. -/
def operandCount (opcode : UInt8) : ℕ := if opcode = Opcode.pushConst.toByte then 2 else 0

/-- A scan of code under way: its position, and the instructions taken so far with theirs. -/
structure Scan where
  position : ℕ := 0
  taken : List (ℕ × Instruction) := []

namespace Scan

/-- One turn. There is none at the end of the code. -/
def step (code : List UInt8) (s : Scan) : Option Scan :=
  code[s.position]?.map fun opcode =>
    let next := s.position + 1 + operandCount opcode
    ⟨next, s.taken ++ [(s.position, ⟨opcode, code.extract (s.position + 1) next⟩)]⟩

/-- So many turns, if there are as many. -/
def run (code : List UInt8) : ℕ → Scan → Option Scan
  | 0, s => some s
  | turns + 1, s => (s.step code).bind (run code turns)

variable {code rest : List UInt8} {s : Scan} {i : Instruction}

/-! ### One turn -/

theorem step_of_end (hd : code.drop s.position = []) : s.step code = none := by
  rw [step, List.getElem?_eq_none (List.drop_eq_nil_iff.1 hd)]
  rfl

/-- What a turn takes, by the bytes from the position on. -/
theorem step_of_drop {opcode : UInt8} {operands : List UInt8} (hd : code.drop s.position = opcode :: operands) :
    s.step code = some ⟨s.position + 1 + operandCount opcode,
      s.taken ++ [(s.position, ⟨opcode, operands.take (operandCount opcode)⟩)]⟩ := by
  have hopcode : code[s.position]? = some opcode := by rw [← List.head?_drop, hd, List.head?_cons]
  have hoperands : code.drop (s.position + 1) = operands := by rw [← List.drop_drop, hd, List.drop_one, List.tail_cons]
  simp only [step, hopcode, Option.map_some, List.extract_eq_take_drop, hoperands, Nat.add_sub_cancel_left]

theorem operandCount_of_whole (h : i.Whole) : operandCount i.opcode = i.operands.length := by
  rw [h, operandCount, Instruction.is]
  simp only [beq_iff_eq]

theorem step_of_whole (h : i.Whole) (hd : code.drop s.position = i.bytes ++ rest) :
    s.step code = some ⟨s.position + i.bytes.length, s.taken ++ [(s.position, i)]⟩ := by
  have hlength : s.position + 1 + i.operands.length = s.position + i.bytes.length := by
    simp only [bytes, List.length_cons]
    omega
  have hd : code.drop s.position = i.opcode :: (i.operands ++ rest) := hd
  rw [step_of_drop hd, operandCount_of_whole h, List.take_left, hlength]

/-- A turn that wants for operand bytes takes those that are there, and goes past the end. -/
theorem step_of_cut (h : i.Cut) (hd : code.drop s.position = i.bytes) :
    s.step code = some ⟨s.position + 3, s.taken ++ [(s.position, i)]⟩ := by
  have hcount : operandCount i.opcode = 2 := if_pos (is_iff.1 h.1)
  rw [step_of_drop hd, hcount, List.take_of_length_le h.2.le]

/-! ### Whole scans -/

/-- From wherever a scan stands, it ends, and takes what the code from there on is decoded to. -/
theorem run_decode (hd : code.drop s.position = rest) :
    ∃ last, run code (decode rest).length s = some last ∧ last.step code = none ∧
      last.taken = s.taken ++ decodeFrom s.position rest := by
  -- The code ahead loses one instruction a turn; what is taken and what is ahead decoded stay the same together.
  induction rest using code_induction generalizing s with
  | nil => exact ⟨s, rfl, step_of_end hd, (List.append_nil _).symm⟩
  | cut i h =>
    have hend : code.drop (s.position + 3) = [] := by
      rw [← List.drop_drop, hd, List.drop_eq_nil_iff, bytes, List.length_cons]
      exact Nat.succ_le_succ h.2.le
    rw [decode_bytes_of_cut h, decodeFrom_bytes_of_cut h]
    exact ⟨_, by rw [List.length_singleton, run, step_of_cut h hd]; rfl, step_of_end hend, rfl⟩
  | cons i rest h ih =>
    have hnext : code.drop (s.position + i.bytes.length) = rest := by rw [← List.drop_drop, hd, List.drop_left]
    obtain ⟨last, hrun, hend, htaken⟩ := ih (s := ⟨_, s.taken ++ [(s.position, i)]⟩) hnext
    rw [decode_bytes_append h, decodeFrom_bytes_append h]
    refine ⟨last, ?_, hend, ?_⟩
    · rw [List.length_cons, run, step_of_whole h hd]
      exact hrun
    · rw [htaken, List.append_assoc, List.singleton_append]

end Scan

/-! ### Positions -/

/-- A decoded instruction stands behind the bytes of those before it. -/
theorem start_of_getElem? {code : List UInt8} {start index : ℕ} {entry : ℕ × Instruction}
    (h : (decodeFrom start code)[index]? = some entry) :
    entry.1 = start + (assemble ((decode code).take index)).length := by
  induction code using code_induction generalizing start index with
  | nil => simp [decodeFrom] at h
  | cut i hc =>
    rw [decodeFrom_bytes_of_cut hc] at h
    cases index with
    | zero => simp [← Option.some.inj h, assemble]
    | succ index => simp at h
  | cons i rest hw ih =>
    rw [decodeFrom_bytes_append hw] at h
    rw [decode_bytes_append hw]
    cases index with
    | zero => simp [← Option.some.inj h, assemble]
    | succ index =>
      rw [ih h, List.take_succ_cons, assemble, assemble, List.flatMap_cons, List.length_append, Nat.add_assoc]

/-- Decoding and assembling are inverse to each other. A scan of any code ends, and takes what the code is decoded
to: instructions that have the bytes of the code, a cut one included, each at the total length of those before it.
And whole instructions are decoded from their bytes. -/
theorem decoding_inverts_assembling :
    (∀ code : List UInt8,
      (∃ last, Scan.run code (decode code).length {} = some last ∧ last.step code = none ∧
        last.taken = decodeFrom 0 code) ∧
      assemble (decode code) = code ∧
      ∀ index entry, (decodeFrom 0 code)[index]? = some entry →
        entry.1 = (assemble ((decode code).take index)).length) ∧
    ∀ instructions : List Instruction, (∀ i ∈ instructions, i.Whole) →
      decode (assemble instructions) = instructions := by
  refine ⟨fun code => ⟨?_, assemble_decode code, fun index entry h => ?_⟩, fun instructions h => ?_⟩
  · exact Scan.run_decode (s := {}) List.drop_zero
  · rw [start_of_getElem? h, Nat.zero_add]
  · exact decode_assemble (Stream.of_whole h)

/-- Operands that look like opcodes, and a push cut short. -/
theorem decoding_inverts_assembling_of_lookalikes :
    (∀ i ∈ [push 0x0560, plain (.binary .add)], i.Whole) ∧
      decode [5, 5, 0x60, 0x60] = [push 0x0560, plain (.binary .add)] ∧
      (decodeFrom 0 [5, 5, 0x60, 5, 5])[1]? = some (3, ⟨5, [5]⟩) ∧
      (assemble ((decode [5, 5, 0x60, 5, 5]).take 1)).length = 3 := by
  have hwhole : ∀ i ∈ [push 0x0560, plain (.binary .add)], i.Whole := by
    simp only [List.forall_mem_cons, List.not_mem_nil, IsEmpty.forall_iff, implies_true, and_true]
    exact ⟨rfl, rfl⟩
  have hcut : (decodeFrom 0 [5, 5, 0x60, 5, 5])[1]? = some (3, ⟨5, [5]⟩) := rfl
  obtain ⟨hcode, hinstructions⟩ := decoding_inverts_assembling
  obtain ⟨-, -, hstart⟩ := hcode [5, 5, 0x60, 5, 5]
  exact ⟨hwhole, hinstructions _ hwhole, hcut, (hstart 1 _ hcut).symm⟩

end ScalarScript
