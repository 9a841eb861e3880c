import ScalarScript.Proofs.Bytecode.Listing
import ScalarScript.Proofs.Bytecode.Safety

/-! Fetching against decoding. A machine takes its code byte by byte, yet the states in which it fetches an
opcode stand at the decoded instructions, one after another from the first, and a push loads the index that
decoding gives it. A cut push is where the operand is missing, and nothing else is. -/
namespace ScalarScript

/-! ### Reading an instruction -/

/-- Whole instructions do not want for operands. -/
theorem Instruction.Whole.execute_ne_missingOperand {i : Instruction} (h : i.Whole) (constants : List Constant)
    (stack after : List Value) : i.execute constants stack ≠ .error (.error .missingOperand, after) := by
  intro he
  obtain (hu | hf) | ⟨index, -, -, -, hx⟩ | ⟨-, ho⟩ := h.fault_of_execute he
  · cases hu
  · exact hf rfl
  · cases hx
  · cases ho

theorem exists_mem_iff_of_forall₂ {α β : Type} {R : α → β → Prop} {p : α → Prop} {q : β → Prop}
    {as : List α} {bs : List β} (h : List.Forall₂ R as bs) (hpq : ∀ a b, R a b → (p a ↔ q b)) :
    (∃ a ∈ as, p a) ↔ ∃ b ∈ bs, q b := by
  induction h with
  | nil => simp
  | cons hab _ ih => simp only [List.exists_mem_cons_iff, hpq _ _ hab, ih]

namespace Progress

/-- The state stands in the code at the decoded instruction and takes it for what it is. -/
structure Reads (chunk : Chunk) (s : Progress) (entry : ℕ × Instruction) : Prop where
  ip : s.ip = entry.1
  opcode : chunk.code[s.ip]? = some entry.2.opcode
  index : entry.2.is .pushConst = true → ∀ index, entry.2.index? = some index →
    ∃ rest, step chunk.constants s = load chunk.constants index ⟨rest, s.ip + 3, s.stack⟩
  missing : (∃ t, step chunk.constants s = .stopped (.error .missingOperand) t) ↔ entry.2.Cut

variable {chunk : Chunk} {ip : ℕ} {stack : List Value} {i : Instruction}

theorem getElem?_of_drop {code rest : List UInt8} (hd : i.bytes ++ rest = code.drop ip) :
    code[ip]? = some i.opcode := by
  rw [← List.head?_drop, ← hd]
  rfl

theorem reads_whole {rest : List UInt8} (h : i.Whole) (hd : i.bytes ++ rest = chunk.code.drop ip) :
    Reads chunk ⟨i.bytes ++ rest, ip, stack⟩ (ip, i) where
  ip := rfl
  opcode := getElem?_of_drop hd
  index hp index hx := by
    obtain ⟨high, low, rfl⟩ := Instruction.exists_operands_of_push h hp
    cases hx
    exact ⟨rest, rfl⟩
  missing := by
    refine iff_of_false ?_ h.not_cut
    rintro ⟨t, ht⟩
    have hr := (step_bytes_append chunk.constants stack h rest ip).1
    rw [ht] at hr
    exact h.execute_ne_missingOperand _ _ _ hr.symm

theorem reads_cut (h : i.Cut) (hd : i.bytes = chunk.code.drop ip) : Reads chunk ⟨i.bytes, ip, stack⟩ (ip, i) where
  ip := rfl
  opcode := getElem?_of_drop ((List.append_nil _).trans hd)
  index _ index hx := by simp [Instruction.index?_of_cut h] at hx
  missing := by
    obtain ⟨t, ht, -⟩ := settle_of_error (step_bytes_of_cut chunk.constants stack h ip)
    exact iff_of_true ⟨t, ht⟩ h

/-! ### One step -/

/-- A state that is not at the end of the code reads the first of the instructions ahead. If it goes on, then
to the next of them. -/
theorem exists_reads {s : Progress} (hd : s.ahead = chunk.code.drop s.ip) (ha : s.ahead ≠ []) :
    ∃ entry rest, decodeFrom s.ip s.ahead = entry :: rest ∧ s.Reads chunk entry ∧
      ∀ t, step chunk.constants s = .running t → t.ahead = chunk.code.drop t.ip ∧ rest = decodeFrom t.ip t.ahead := by
  obtain ⟨ahead, ip, stack⟩ := s
  cases ahead using code_induction with
  | nil => exact absurd rfl ha
  | cut i h =>
    refine ⟨_, _, decodeFrom_bytes_of_cut h ip, reads_cut h hd, fun t ht => ?_⟩
    have hr := step_bytes_of_cut chunk.constants stack h ip
    rw [ht] at hr
    cases hr
  | cons i rest h =>
    refine ⟨_, _, decodeFrom_bytes_append h ip rest, reads_whole h hd, fun t ht => ?_⟩
    obtain ⟨hahead, hip⟩ := (step_bytes_append chunk.constants stack h rest ip).2 t ht
    rw [hahead, hip]
    refine ⟨?_, rfl⟩
    rw [← List.drop_drop, ← hd, List.drop_left]

/-! ### Whole runs -/

/-- The states in which a run fetches an opcode read the decoded instructions from the first on. -/
theorem Runs.reads {s last : Progress} {fetched : List Progress} {outcome : Except Fault Value}
    (h : Runs chunk.constants s fetched outcome last) (hd : s.ahead = chunk.code.drop s.ip) :
    ∃ reached, reached <+: decodeFrom s.ip s.ahead ∧ List.Forall₂ (Reads chunk) fetched reached := by
  -- Each step takes the bytes of one instruction, so what is ahead stays the code from the position on.
  induction h with
  | atEnd => exact ⟨[], List.nil_prefix, .nil⟩
  | last ha =>
    obtain ⟨entry, rest, he, hr, -⟩ := exists_reads hd ha
    exact ⟨[entry], he ▸ ⟨rest, rfl⟩, .cons hr .nil⟩
  | next h _ ih =>
    have ha := List.ne_nil_of_length_pos (Nat.zero_lt_of_lt (length_of_step h))
    obtain ⟨entry, rest, he, hr, hnext⟩ := exists_reads hd ha
    obtain ⟨hd', rfl⟩ := hnext _ h
    obtain ⟨reached, hp, hreads⟩ := ih hd'
    refine ⟨entry :: reached, ?_, .cons hr hreads⟩
    rw [he]
    exact (List.prefix_cons_inj entry).2 hp

/-- A run fails for a missing operand just if a state that it comes to does. -/
theorem Runs.missingOperand_iff {constants : List Constant} {s last : Progress} {fetched : List Progress}
    {outcome : Except Fault Value} (h : Runs constants s fetched outcome last) :
    outcome = .error .missingOperand ↔
      ∃ s ∈ fetched, ∃ t, step constants s = .stopped (.error .missingOperand) t := by
  induction h with
  | @atEnd s _ _ ha h =>
    refine iff_of_false ?_ (by simp)
    rintro rfl
    obtain ⟨ahead, ip, stack⟩ := s
    obtain rfl : ahead = [] := ha
    cases stack <;> cases h
  | last ha h =>
    simp only [List.mem_singleton, exists_eq_left, h, Event.stopped.injEq, exists_and_left, exists_eq', and_true]
  | next h _ ih =>
    rw [ih]
    simp [h]

end Progress

/-- A run of a chunk fetches opcodes at the decoded instructions that it reached, each read as it is decoded. It
fails for a missing operand just if it reached the last instruction of the code and that is cut. -/
structure Run.FollowsDecoding (run : Run) (chunk : Chunk) (fetched : List Progress) (last : Progress)
    (reached : List (ℕ × Instruction)) : Prop where
  runs : Progress.Runs chunk.constants ⟨chunk.code, 0, run.before.stack⟩ fetched run.outcome last
  isPrefix : reached <+: decodeFrom 0 chunk.code
  reads : List.Forall₂ (Progress.Reads chunk) fetched reached
  missing : run.outcome = .error .missingOperand ↔
    ∃ entry ∈ reached, (decodeFrom 0 chunk.code).getLast? = some entry ∧ entry.2.Cut

namespace Machine

theorem attempt_eq_of_runs {m : Machine} {chunk : Chunk} {fetched : List Progress} {outcome : Except Fault Value}
    {last : Progress} (h : Progress.Runs chunk.constants ⟨chunk.code, 0, m.stack⟩ fetched outcome last) :
    m.attempt chunk = ⟨m, outcome, ⟨last.stack, m.frames ++ [⟨chunk, last.ip⟩]⟩⟩ := by
  rw [attempt, Machine.run, h.run_eq]
  cases outcome <;> rfl

theorem exists_followsDecoding (m : Machine) (chunk : Chunk) :
    ∃ fetched last reached, (m.attempt chunk).FollowsDecoding chunk fetched last reached := by
  obtain ⟨fetched, outcome, last, hr, -⟩ : ∃ fetched outcome last,
      Progress.Runs chunk.constants ⟨chunk.code, 0, m.stack⟩ fetched outcome last ∧ _ := Progress.exists_runs _
  obtain ⟨reached, hp, hreads⟩ : ∃ reached, reached <+: decodeFrom 0 chunk.code ∧
      List.Forall₂ (Progress.Reads chunk) fetched reached := hr.reads rfl
  rw [attempt_eq_of_runs hr]
  refine ⟨fetched, last, reached, hr, hp, hreads, ?_⟩
  rw [hr.missingOperand_iff, exists_mem_iff_of_forall₂ hreads fun s entry h => h.missing]
  exact exists_congr fun entry => and_congr_right fun hm => (and_iff_right_of_imp (getLast?_of_cut (hp.subset hm))).symm

/-- Listing, decoding and running tell the same instructions apart, whatever the bytes, the table and the
stack are. -/
theorem decoders_agree (m : Machine) (chunk : Chunk) :
    chunk.ListsDecoding ∧ ∃ fetched last reached, (m.attempt chunk).FollowsDecoding chunk fetched last reached :=
  ⟨chunk.listsDecoding, m.exists_followsDecoding chunk⟩

end Machine
end ScalarScript
