import ScalarScript.Proofs.Bytecode.Session
import ScalarScript.Proofs.Operand

/-! Safety of the machine on any bytes and any table. A run ends, and it fetches no more opcodes than the
code has bytes. It comes to a value that fits its origin, or to one of a few faults, each with its cause in
the state in which the last opcode was fetched. -/
namespace ScalarScript

namespace Progress

variable {constants : List Constant}

/-! ### Opcodes fetched -/

/-- The run from a state, with the states in which it fetches an opcode. At the end of the code it fetches
none. -/
inductive Runs (constants : List Constant) : Progress → List Progress → Except Fault Value → Progress → Prop
  | atEnd {s t : Progress} {outcome : Except Fault Value} (ha : s.ahead = [])
    (h : step constants s = .stopped outcome t) : Runs constants s [] outcome t
  | last {s t : Progress} {outcome : Except Fault Value} (ha : s.ahead ≠ [])
    (h : step constants s = .stopped outcome t) : Runs constants s [s] outcome t
  | next {s t last : Progress} {fetched : List Progress} {outcome : Except Fault Value}
    (h : step constants s = .running t) (ht : Runs constants t fetched outcome last) :
    Runs constants s (s :: fetched) outcome last

theorem Runs.run_eq {s t : Progress} {fetched : List Progress} {outcome : Except Fault Value}
    (h : Runs constants s fetched outcome t) : run constants s = (outcome, t) := by
  induction h with
  | atEnd _ h | last _ h => exact run_of_stopped h
  | next h _ ih => exact (run_of_running h).trans ih

/-- Every run ends, since each opcode that it fetches takes a byte at least. -/
theorem exists_runs (s : Progress) :
    ∃ fetched outcome t, Runs constants s fetched outcome t ∧ fetched.length ≤ s.ahead.length := by
  cases h : step constants s with
  | stopped outcome t =>
    by_cases ha : s.ahead = []
    · exact ⟨[], outcome, t, .atEnd ha h, Nat.zero_le _⟩
    · exact ⟨[s], outcome, t, .last ha h, List.length_pos_iff.2 ha⟩
  | running t =>
    have hlt := length_of_step h
    obtain ⟨fetched, outcome, last, hr, hle⟩ := exists_runs t
    exact ⟨s :: fetched, outcome, last, .next h hr, Nat.succ_le_of_lt (Nat.lt_of_le_of_lt hle hlt)⟩
termination_by s.ahead.length

/-! ### Causes of failure -/

/-- The ways to fail at the opcode ahead. -/
inductive Fails (constants : List Constant) : Progress → Fault → Prop
  | missingOperand {rest : List UInt8} {ip : ℕ} {stack : List Value} (h : rest.length < 2) :
    Fails constants ⟨Opcode.pushConst.toByte :: rest, ip, stack⟩ .missingOperand
  | constantOutOfRange {high low : UInt8} {rest : List UInt8} {ip : ℕ} {stack : List Value}
    (h : constants.length ≤ wordOf high low) :
    Fails constants ⟨Opcode.pushConst.toByte :: high :: low :: rest, ip, stack⟩ (.constantOutOfRange (wordOf high low))
  | conversion {high low : UInt8} {rest : List UInt8} {ip : ℕ} {stack : List Value} {c : Constant} {fault : Fault}
    (hc : constants[wordOf high low]? = some c) (h : c.toValue = .error fault) (hf : fault.family = .conversion) :
    Fails constants ⟨Opcode.pushConst.toByte :: high :: low :: rest, ip, stack⟩ fault
  | unknownOpcode {byte : UInt8} {rest : List UInt8} {ip : ℕ} {stack : List Value} (h : Opcode.ofByte? byte = none) :
    Fails constants ⟨byte :: rest, ip, stack⟩ (.unknownOpcode byte)
  | pop {rest : List UInt8} {ip : ℕ} : Fails constants ⟨Opcode.pop.toByte :: rest, ip, []⟩ .stackUnderflow
  | operand {op : Operator} {rest : List UInt8} {ip : ℕ} {stack : List Value} (h : stack.length < 2) :
    Fails constants ⟨(Opcode.binary op).toByte :: rest, ip, stack⟩ .stackUnderflow
  | application {op : Operator} {rest : List UInt8} {ip : ℕ} {a b : Value} {below : List Value} {fault : Fault}
    (h : op.apply a b = .error fault) (hf : fault.family = .mismatch ∨ fault.family = .division) :
    Fails constants ⟨(Opcode.binary op).toByte :: rest, ip, b :: a :: below⟩ fault

theorem Fails.ahead_ne_nil {s : Progress} {fault : Fault} (h : Fails constants s fault) : s.ahead ≠ [] := by
  cases h <;> exact List.cons_ne_nil _ _

theorem Fails.family {s : Progress} {fault : Fault} (h : Fails constants s fault) :
    fault.family = .machine ∨ fault.family = .conversion ∨ fault.family = .mismatch ∨ fault.family = .division := by
  cases h with
  | missingOperand | constantOutOfRange | unknownOpcode | pop | operand => exact .inl rfl
  | conversion _ _ hf => exact .inr (.inl hf)
  | application _ hf => exact .inr (.inr hf)

end Progress

/-! ### One step -/

/-- The event of a step from a state keeps to canonical values, and a fault has its cause in the state. -/
def Event.Safe (constants : List Constant) (s : Progress) : Event → Prop
  | .running t => ∀ v ∈ t.stack, v.Canonical
  | .stopped (.ok v) _ => v.Canonical
  | .stopped (.error fault) _ => s.Fails constants fault

namespace Progress

variable {constants : List Constant} {stack : List Value} (hs : ∀ v ∈ stack, v.Canonical)
include hs

theorem safe_finish (s : Progress) (ahead : List UInt8) (ip : ℕ) : (finish ⟨ahead, ip, stack⟩).Safe constants s := by
  cases stack with
  | nil => exact ⟨trivial, rfl⟩
  | cons top below => exact hs top List.mem_cons_self

theorem safe_load (hk : Keyed constants) (high low : UInt8) (rest : List UInt8) (ip : ℕ) :
    (load constants (wordOf high low) ⟨rest, ip + 3, stack⟩).Safe constants
      ⟨Opcode.pushConst.toByte :: high :: low :: rest, ip, stack⟩ := by
  cases hc : constants[wordOf high low]? with
  | none =>
    simp only [load, hc]
    exact .constantOutOfRange (List.getElem?_eq_none_iff.1 hc)
  | some c =>
    cases hv : c.toValue with
    | ok v =>
      simp only [load, hc, hv]
      exact List.forall_mem_cons.2 ⟨Constant.canonical_toValue hv, hs⟩
    | error fault =>
      simp only [load, hc, hv]
      exact .conversion hc hv (Constant.family_toValue (hk c (List.mem_of_getElem? hc)) hv)

theorem safe_operator (op : Operator) (rest : List UInt8) (ip : ℕ) :
    (perform constants (.binary op) ⟨rest, ip + 1, stack⟩).Safe constants
      ⟨(Opcode.binary op).toByte :: rest, ip, stack⟩ := by
  match stack, hs with
  | [], _ => exact .operand (by simp)
  | [_], _ => exact .operand (by simp)
  | b :: a :: below, hs =>
    obtain ⟨hb, ha, hbelow⟩ : b.Canonical ∧ a.Canonical ∧ ∀ v ∈ below, v.Canonical := by simpa using hs
    obtain ⟨outcome, ho, hv⟩ | ⟨fault, ho, hf⟩ := op.apply_fits ha.fits hb.fits
    · simp only [perform, ho]
      exact List.forall_mem_cons.2 ⟨hv.canonical, hbelow⟩
    · simp only [perform, ho]
      exact .application ho hf

/-- A step on a stack of canonical values. -/
theorem safe_step (hk : Keyed constants) (ahead : List UInt8) (ip : ℕ) :
    (step constants ⟨ahead, ip, stack⟩).Safe constants ⟨ahead, ip, stack⟩ := by
  cases ahead with
  | nil => exact safe_finish hs _ _ _
  | cons byte rest =>
    rw [step_cons]
    cases ho : Opcode.ofByte? byte with
    | none => exact .unknownOpcode ho
    | some op =>
      obtain rfl := Opcode.toByte_of_ofByte? ho
      cases op with
      | nop => exact hs
      | halt => exact safe_finish hs _ _ _
      | binary op => exact safe_operator hs op rest ip
      | pop =>
        cases stack with
        | nil => exact .pop
        | cons top below => exact (List.forall_mem_cons.1 hs).2
      | pushConst =>
        match rest with
        | [] => exact .missingOperand (by simp)
        | [_] => exact .missingOperand (by simp)
        | high :: low :: rest => exact safe_load hs hk high low rest ip

end Progress

/-! ### Whole runs -/

namespace Progress

variable {constants : List Constant} (hk : Keyed constants)
include hk

theorem safe_of_stopped {s t : Progress} {outcome : Except Fault Value} (hs : ∀ v ∈ s.stack, v.Canonical)
    (h : step constants s = .stopped outcome t) :
    (∃ v, outcome = .ok v ∧ v.Canonical) ∨ ∃ fault, outcome = .error fault ∧ s.Fails constants fault := by
  have hsafe := safe_step hs hk s.ahead s.ip
  rw [h] at hsafe
  cases outcome with
  | ok v => exact .inl ⟨v, rfl, hsafe⟩
  | error fault => exact .inr ⟨fault, rfl, hsafe⟩

theorem Runs.safe {s t : Progress} {fetched : List Progress} {outcome : Except Fault Value}
    (h : Runs constants s fetched outcome t) (hs : ∀ v ∈ s.stack, v.Canonical) :
    (∃ v, outcome = .ok v ∧ v.Canonical) ∨
      ∃ fault last, outcome = .error fault ∧ fetched.getLast? = some last ∧ last.Fails constants fault := by
  induction h with
  | atEnd ha h =>
    obtain hv | ⟨fault, -, hc⟩ := safe_of_stopped hk hs h
    · exact .inl hv
    · exact absurd ha hc.ahead_ne_nil
  | @last s _ _ _ h =>
    obtain hv | ⟨fault, hf, hc⟩ := safe_of_stopped hk hs h
    · exact .inl hv
    · exact .inr ⟨fault, s, hf, rfl, hc⟩
  | @next s _ _ _ _ h _ ih =>
    have hsafe := safe_step hs hk s.ahead s.ip
    rw [h] at hsafe
    obtain hv | ⟨fault, last, hf, hl, hc⟩ := ih hsafe
    · exact .inl hv
    · exact .inr ⟨fault, last, hf, by rw [List.getLast?_cons, hl]; rfl, hc⟩

end Progress

/-- A run of a chunk, with the states in which it fetched an opcode and the one in which it stopped. It fetched
no more opcodes than the code has bytes. It came to a value that fits, in the category of its origin, or it
failed at the last opcode for a cause. -/
structure Run.Safe (run : Run) (chunk : Chunk) (fetched : List Progress) (last : Progress) : Prop where
  runs : Progress.Runs chunk.constants ⟨chunk.code, 0, run.before.stack⟩ fetched run.outcome last
  length_le : fetched.length ≤ chunk.code.length
  outcome : (∃ v, run.outcome = .ok v ∧ v.Canonical) ∨
    ∃ fault s, run.outcome = .error fault ∧ fetched.getLast? = some s ∧ s.Fails chunk.constants fault ∧
      (fault.family = .machine ∨ fault.family = .conversion ∨ fault.family = .mismatch ∨ fault.family = .division)

/-- Any code over any table of short constants is safe to run on a new machine. -/
theorem Machine.exists_safe_attempt {chunk : Chunk}
    (hs : ∀ c ∈ chunk.constants, ∀ n ∈ c.value.integers, Native.IsShort n) :
    ∃ fetched last, (attempt {} chunk).Safe chunk fetched last := by
  have hk : Keyed chunk.constants := fun c hc => Constant.hasKey_of_isShort (hs c hc)
  obtain ⟨fetched, outcome, last, hr, hl⟩ := Progress.exists_runs ⟨chunk.code, 0, []⟩
  have ha : attempt {} chunk = ⟨{}, outcome, ⟨last.stack, [⟨chunk, last.ip⟩]⟩⟩ := by
    rw [attempt, Machine.run, hr.run_eq]
    cases outcome <;> rfl
  rw [ha]
  refine ⟨fetched, last, hr, hl, ?_⟩
  obtain hv | ⟨fault, s, hf, hlast, hc⟩ := hr.safe hk (List.forall_mem_nil _)
  · exact .inl hv
  · exact .inr ⟨fault, s, hf, hlast, hc, hc.family⟩

/-- Nothing is pushed and dropped, and then a list is no integer. -/
theorem Machine.exists_safe_attempt_of_list :
    ∃ fetched last,
      (attempt {} ⟨[5, 0, 0, 7, 5, 0, 1, 0x60], [⟨.string, .none⟩, ⟨.int32, .list [.string "a"]⟩]⟩).Safe
        ⟨[5, 0, 0, 7, 5, 0, 1, 0x60], [⟨.string, .none⟩, ⟨.int32, .list [.string "a"]⟩]⟩ fetched last := by
  refine Machine.exists_safe_attempt (List.forall_mem_cons.2 ⟨?_, List.forall_mem_singleton.2 ?_⟩)
  · simp [Native.integers]
  · simp [Native.integers, Native.allIntegers]

end ScalarScript
