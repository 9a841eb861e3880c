import ScalarScript.Bytecode.Machine
import ScalarScript.Proofs.Bytecode.Stream
import ScalarScript.Proofs.Operand

/-! Execution of decoded instructions. The machine reads bytes, but what a run comes to and the stack
that it leaves depend on the instructions alone, taken one after another over the stack. -/
namespace ScalarScript

/-- How a run ended: its outcome and the stack that it left. -/
abbrev Ending := Except Fault Value × List Value

/-- The stack to go on with, or the ending of the run. -/
def Event.result : Event → Except Ending (List Value)
  | .running s => .ok s.stack
  | .stopped outcome s => .error (outcome, s.stack)

/-- The end of the code takes the top of the stack, or the empty value. -/
def settle : Except Ending (List Value) → Ending
  | .ok [] => (.ok .empty, [])
  | .ok (top :: below) => (.ok top, below)
  | .error ending => ending

theorem result_finish (s : Progress) : s.finish.result = .error (settle (.ok s.stack)) := by
  obtain ⟨ahead, ip, stack⟩ := s
  cases stack <;> rfl

theorem result_load {constants : List Constant} {index : ℕ} {c : Constant} (h : constants[index]? = some c)
    (s : Progress) :
    (s.load constants index).result =
      match c.toValue with
      | .ok v => .ok (v :: s.stack)
      | .error fault => .error (.error fault, s.stack) := by
  simp only [Progress.load, h]
  cases c.toValue <;> rfl

theorem result_load_of_none {constants : List Constant} {index : ℕ} (h : constants[index]? = none) (s : Progress) :
    (s.load constants index).result = .error (.error (.constantOutOfRange index), s.stack) := by
  simp only [Progress.load, h]
  rfl

namespace Instruction

/-- One instruction over a stack. -/
def execute (constants : List Constant) (stack : List Value) (i : Instruction) : Except Ending (List Value) :=
  (Progress.step constants ⟨i.bytes, 0, stack⟩).result

end Instruction

/-- Instructions one after another, as long as the run goes on. -/
def executeAll (constants : List Constant) (instructions : List Instruction) (stack : List Value) :
    Except Ending (List Value) :=
  instructions.foldlM (Instruction.execute constants) stack

/-- A run of a chunk over a stack. -/
def Chunk.execute (chunk : Chunk) (stack : List Value) : Ending :=
  settle (executeAll chunk.constants (decode chunk.code) stack)

variable {constants : List Constant} {stack : List Value}

@[simp] theorem executeAll_nil : executeAll constants [] stack = .ok stack := rfl

theorem executeAll_cons (i : Instruction) (rest : List Instruction) :
    executeAll constants (i :: rest) stack = i.execute constants stack >>= executeAll constants rest := rfl

theorem executeAll_append (first second : List Instruction) :
    executeAll constants (first ++ second) stack = executeAll constants first stack >>= executeAll constants second := by
  rw [executeAll, List.foldlM_append]
  rfl

/-! ### One step on bytes -/

open Progress

theorem step_cons (byte : UInt8) (rest : List UInt8) (ip : ℕ) :
    step constants ⟨byte :: rest, ip, stack⟩ =
      match Opcode.ofByte? byte with
      | none => .stopped (.error (.unknownOpcode byte)) ⟨rest, ip + 1, stack⟩
      | some op => perform constants op ⟨rest, ip + 1, stack⟩ := rfl

/-- Apart from a push, an opcode does not look at what lies ahead, and stays where it is. -/
theorem perform_ahead {op : Opcode} (h : op ≠ .pushConst) (ahead rest : List UInt8) (ip other : ℕ) :
    (perform constants op ⟨ahead, ip, stack⟩).result = (perform constants op ⟨rest, other, stack⟩).result ∧
      ∀ s, perform constants op ⟨ahead, ip, stack⟩ = .running s → s.ahead = ahead ∧ s.ip = ip := by
  cases op with
  | pushConst => exact absurd rfl h
  | nop => exact ⟨rfl, fun s hs => by cases hs; exact ⟨rfl, rfl⟩⟩
  | halt =>
    refine ⟨?_, fun s hs => by cases stack <;> cases hs⟩
    simp only [perform, result_finish]
  | pop =>
    cases stack with
    | nil => exact ⟨rfl, fun s hs => by cases hs⟩
    | cons top below => exact ⟨rfl, fun s hs => by cases hs; exact ⟨rfl, rfl⟩⟩
  | binary op =>
    cases stack with
    | nil => exact ⟨rfl, fun s hs => by cases hs⟩
    | cons b below =>
      cases below with
      | nil => exact ⟨rfl, fun s hs => by cases hs⟩
      | cons a below =>
        simp only [perform]
        cases op.apply a b with
        | ok outcome => exact ⟨rfl, fun s hs => by cases hs; exact ⟨rfl, rfl⟩⟩
        | error fault => exact ⟨rfl, fun s hs => by cases hs⟩

theorem load_ahead (index : ℕ) (rest : List UInt8) (ip : ℕ) (s : Progress)
    (h : load constants index ⟨rest, ip, stack⟩ = .running s) : s.ahead = rest ∧ s.ip = ip := by
  simp only [load] at h
  split at h
  · cases h
  · split at h <;> cases h
    exact ⟨rfl, rfl⟩

theorem result_load_ahead (index : ℕ) (ahead rest : List UInt8) (ip other : ℕ) :
    (load constants index ⟨ahead, ip, stack⟩).result = (load constants index ⟨rest, other, stack⟩).result := by
  cases h : constants[index]? with
  | none => rw [result_load_of_none h, result_load_of_none h]
  | some c => rw [result_load h, result_load h]

variable (constants stack) in
/-- A whole instruction is executed alike whatever follows it, and what follows is then ahead. -/
theorem step_bytes_append {i : Instruction} (h : i.Whole) (rest : List UInt8) (ip : ℕ) :
    (step constants ⟨i.bytes ++ rest, ip, stack⟩).result = i.execute constants stack ∧
      ∀ s, step constants ⟨i.bytes ++ rest, ip, stack⟩ = .running s → s.ahead = rest ∧ s.ip = ip + i.bytes.length := by
  cases hp : i.is .pushConst with
  | true =>
    obtain ⟨high, low, rfl⟩ := Instruction.exists_operands_of_push h hp
    exact ⟨result_load_ahead _ _ _ _ _, fun s hs => load_ahead _ _ _ s hs⟩
  | false =>
    obtain ⟨byte, operands⟩ := i
    obtain rfl : operands = [] := by simpa [Instruction.Whole, hp] using h
    have hb : byte ≠ Opcode.pushConst.toByte := by simpa [Instruction.is] using hp
    simp only [Instruction.execute, Instruction.bytes, List.cons_append, List.nil_append, step_cons]
    cases ho : Opcode.ofByte? byte with
    | none => exact ⟨rfl, fun s hs => by cases hs⟩
    | some op =>
      have hne : op ≠ .pushConst := by
        rintro rfl
        exact hb (Opcode.toByte_of_ofByte? ho).symm
      exact perform_ahead hne _ _ _ _

variable (constants stack) in
theorem step_bytes_of_cut {i : Instruction} (h : i.Cut) (ip : ℕ) :
    (step constants ⟨i.bytes, ip, stack⟩).result = .error (.error .missingOperand, stack) := by
  obtain ⟨byte, operands⟩ := i
  obtain rfl : byte = Opcode.pushConst.toByte := Instruction.is_iff.1 h.1
  match operands, h.2 with
  | [], _ | [_], _ => rfl

/-! ### Single instructions -/

namespace Instruction

theorem execute_push {index : ℕ} (hi : index < 65536) :
    (push index).execute constants stack = (load constants index ⟨[], 3, stack⟩).result := by
  change (load constants (wordOf _ _) ⟨[], 3, stack⟩).result = _
  rw [wordOf_wordBytes hi]

theorem execute_push_of_some {index : ℕ} (hi : index < 65536) {c : Constant} (hc : constants[index]? = some c) :
    (push index).execute constants stack =
      match c.toValue with
      | .ok v => .ok (v :: stack)
      | .error fault => .error (.error fault, stack) :=
  (execute_push hi).trans (result_load hc _)

theorem execute_push_of_none {index : ℕ} (hi : index < 65536) (hc : constants[index]? = none) :
    (push index).execute constants stack = .error (.error (.constantOutOfRange index), stack) :=
  (execute_push hi).trans (result_load_of_none hc _)

theorem execute_plain (op : Opcode) :
    (plain op).execute constants stack = (perform constants op ⟨[], 1, stack⟩).result := by
  rw [execute, bytes, plain, step_cons, Opcode.ofByte?_toByte]

theorem execute_operator (op : Operator) (a b : Value) :
    (plain (.binary op)).execute constants (b :: a :: stack) =
      match op.apply a b with
      | .ok outcome => .ok (outcome.toValue :: stack)
      | .error fault => .error (.error fault, stack) := by
  rw [execute_plain]
  simp only [perform]
  cases op.apply a b <;> rfl

theorem execute_halt : (plain .halt).execute constants stack = .error (settle (.ok stack)) := by
  rw [execute_plain, perform, result_finish]

theorem execute_pop (top : Value) : (plain .pop).execute constants (top :: stack) = .ok stack := execute_plain .pop

theorem execute_nop : (plain .nop).execute constants stack = .ok stack := execute_plain .nop

/-- Apart from a push, an instruction does not look at the table. -/
theorem execute_congr {i : Instruction} (h : i.is .pushConst = false) (table : List Constant) :
    i.execute constants stack = i.execute table stack := by
  have hb : i.opcode ≠ Opcode.pushConst.toByte := by simpa [Instruction.is] using h
  rw [execute, execute, bytes, step_cons, step_cons]
  cases ho : Opcode.ofByte? i.opcode with
  | none => rfl
  | some op =>
    cases op with
    | pushConst => exact absurd (Opcode.toByte_of_ofByte? ho).symm hb
    | _ => rfl

end Instruction

/-! ### Faults -/

/-- Apart from a push, an opcode makes no fault of the machine but an underflow. -/
theorem fault_of_perform {op : Opcode} (h : op ≠ .pushConst) {ahead : List UInt8} {ip : ℕ} {after : List Value}
    {fault : Fault} (he : (perform constants op ⟨ahead, ip, stack⟩).result = .error (.error fault, after)) :
    fault = .stackUnderflow ∨ fault.family ≠ .machine := by
  cases op with
  | nop => cases he
  | pushConst => exact absurd rfl h
  | halt => cases stack <;> cases he
  | pop =>
    cases stack with
    | nil =>
      cases he
      exact .inl rfl
    | cons top below => cases he
  | binary op =>
    obtain _ | ⟨b, _ | ⟨a, below⟩⟩ := stack
    · cases he
      exact .inl rfl
    · cases he
      exact .inl rfl
    · simp only [perform] at he
      cases ho : op.apply a b with
      | ok outcome =>
        rw [ho] at he
        cases he
      | error other =>
        rw [ho] at he
        cases he
        exact .inr (Operator.family_apply_ne_machine ho)

/-- A whole instruction makes no fault of the machine but an underflow, an index beyond the table or an opcode
that is unknown. -/
theorem Instruction.Whole.fault_of_execute {i : Instruction} (h : i.Whole) {after : List Value} {fault : Fault}
    (he : i.execute constants stack = .error (.error fault, after)) :
    (fault = .stackUnderflow ∨ fault.family ≠ .machine) ∨
      (∃ index, i.is .pushConst = true ∧ i.index? = some index ∧ constants[index]? = none ∧
        fault = .constantOutOfRange index) ∨
      Opcode.ofByte? i.opcode = none ∧ fault = .unknownOpcode i.opcode := by
  cases hp : i.is .pushConst with
  | true =>
    obtain ⟨index, hi, rfl, hx⟩ := exists_index_of_whole h hp
    cases hc : constants[index]? with
    | none =>
      rw [execute_push_of_none hi hc] at he
      cases he
      exact .inr (.inl ⟨index, rfl, hx, hc, rfl⟩)
    | some c =>
      rw [execute_push_of_some hi hc] at he
      cases hv : c.toValue with
      | ok v =>
        rw [hv] at he
        cases he
      | error other =>
        rw [hv] at he
        cases he
        exact .inl (.inr (Constant.family_toValue_ne_machine hv))
  | false =>
    rw [execute, bytes, step_cons] at he
    cases ho : Opcode.ofByte? i.opcode with
    | none =>
      rw [ho] at he
      cases he
      exact .inr (.inr ⟨rfl, rfl⟩)
    | some op =>
      rw [ho] at he
      refine .inl (fault_of_perform ?_ he)
      rintro rfl
      exact absurd (is_iff.2 (Opcode.toByte_of_ofByte? ho).symm) (by simp [hp])

/-! ### A whole run -/

theorem settle_of_error {event : Event} {ending : Ending} (h : event.result = .error ending) :
    ∃ s, event = .stopped ending.1 s ∧ s.stack = ending.2 := by
  cases event with
  | running s => cases h
  | stopped outcome s =>
    cases h
    exact ⟨s, rfl, rfl⟩

variable (constants) in
theorem run_assemble {instructions : List Instruction} (h : Stream instructions) (ip : ℕ) (stack : List Value) :
    ∃ s, Progress.run constants ⟨assemble instructions, ip, stack⟩ =
        ((settle (executeAll constants instructions stack)).1, s) ∧
      s.stack = (settle (executeAll constants instructions stack)).2 := by
  induction h generalizing ip stack with
  | nil =>
    cases stack with
    | nil => exact ⟨_, run_of_stopped rfl, rfl⟩
    | cons top below => exact ⟨_, run_of_stopped rfl, rfl⟩
  | @cut i h =>
    have he : executeAll constants [i] stack = .error (.error .missingOperand, stack) := by
      rw [executeAll_cons, Instruction.execute, step_bytes_of_cut constants stack h]
      rfl
    have hb : assemble [i] = i.bytes := by simp [assemble]
    obtain ⟨s, hs, hst⟩ := settle_of_error (step_bytes_of_cut constants stack h ip)
    rw [hb, he]
    exact ⟨s, run_of_stopped hs, hst⟩
  | @cons i rest h _ ih =>
    obtain ⟨hr, ha⟩ := step_bytes_append constants stack h (assemble rest) ip
    change ∃ s, Progress.run constants ⟨i.bytes ++ assemble rest, ip, stack⟩ = _ ∧ _
    rw [executeAll_cons, ← hr]
    cases hs : step constants ⟨i.bytes ++ assemble rest, ip, stack⟩ with
    | stopped outcome s => exact ⟨s, run_of_stopped hs, rfl⟩
    | running s =>
      obtain ⟨ahead, ip', stack'⟩ := s
      obtain rfl : ahead = assemble rest := (ha _ hs).1
      obtain ⟨t, ht, hst⟩ := ih ip' stack'
      exact ⟨t, (run_of_running hs).trans ht, hst⟩

variable (constants) in
theorem run_code (code : List UInt8) (stack : List Value) :
    ∃ s, Progress.run constants ⟨code, 0, stack⟩ = ((Chunk.execute ⟨code, constants⟩ stack).1, s) ∧
      s.stack = (Chunk.execute ⟨code, constants⟩ stack).2 := by
  have h := run_assemble constants (stream_decode code) 0 stack
  rwa [assemble_decode] at h

theorem Chunk.run_eq_execute (chunk : Chunk) : chunk.run = (chunk.execute []).1 := by
  obtain ⟨s, hs, -⟩ := run_code chunk.constants chunk.code []
  rw [Chunk.run, hs]

/-- A machine's run ends as the execution over its stack does, and adds a frame. -/
theorem Machine.run_eq_execute (chunk : Chunk) (m : Machine) : ∃ ip,
    Machine.run chunk m =
      match chunk.execute m.stack with
      | (.ok v, after) => .ok v ⟨after, m.frames ++ [⟨chunk, ip⟩]⟩
      | (.error fault, after) => .error fault ⟨after, m.frames ++ [⟨chunk, ip⟩]⟩ := by
  obtain ⟨s, hs, hst⟩ := run_code chunk.constants chunk.code m.stack
  refine ⟨s.ip, ?_⟩
  simp only [Machine.run, hs, hst]
  rcases chunk.execute m.stack with ⟨_ | _, after⟩ <;> rfl

end ScalarScript
