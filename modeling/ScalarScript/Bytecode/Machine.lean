import ScalarScript.Bytecode.Chunk
import ScalarScript.Operator.Apply

/-! The stack machine. A run reads its code from the front and never goes back, so each step shortens
what lies ahead. It ends at `halt` or at the end of the code with the top of the stack, or with a
fault; values that a failing step took are gone. A machine keeps its stack over its runs, and a
record of every run's chunk and of the position it reached. -/
namespace ScalarScript

/-- A run in progress: the code ahead, the position in the code, and the stack, top first. -/
structure Progress where
  ahead : List UInt8
  ip : Nat
  stack : List Value

/-- What a step leads to. -/
inductive Event where
  | running (s : Progress)
  | stopped (outcome : Except Fault Value) (s : Progress)

namespace Progress

/-- Gives up the top of the stack, or the empty value. -/
def finish (s : Progress) : Event :=
  match s.stack with
  | [] => .stopped (.ok .empty) s
  | top :: below => .stopped (.ok top) { s with stack := below }

/-- Pushes the constant at an index. -/
def load (constants : List Constant) (index : Nat) (s : Progress) : Event :=
  match constants[index]? with
  | none => .stopped (.error (.constantOutOfRange index)) s
  | some c =>
    match c.toValue with
    | .ok v => .running { s with stack := v :: s.stack }
    | .error fault => .stopped (.error fault) s

/-- Performs an opcode whose byte has been read. -/
def perform (constants : List Constant) (op : Opcode) (s : Progress) : Event :=
  match op with
  | .nop => .running s
  | .pushConst =>
    match s.ahead with
    | high :: low :: rest =>
      load constants (wordOf high low) { s with ahead := rest, ip := s.ip + 2 }
    | _ => .stopped (.error .missingOperand) s
  | .pop =>
    match s.stack with
    | [] => .stopped (.error .stackUnderflow) s
    | _ :: below => .running { s with stack := below }
  | .binary op =>
    match s.stack with
    | b :: a :: below =>
      match op.apply a b with
      | .ok outcome => .running { s with stack := outcome.toValue :: below }
      | .error fault => .stopped (.error fault) { s with stack := below }
    | _ => .stopped (.error .stackUnderflow) { s with stack := [] }
  | .halt => finish s

/-- Reads the next byte and performs it. -/
def step (constants : List Constant) (s : Progress) : Event :=
  match s.ahead with
  | [] => finish s
  | byte :: rest =>
    let s := { s with ahead := rest, ip := s.ip + 1 }
    match Opcode.ofByte? byte with
    | none => .stopped (.error (.unknownOpcode byte)) s
    | some op => perform constants op s

theorem length_of_perform {constants : List Constant} {op : Opcode} {s t : Progress}
    (h : perform constants op s = .running t) : t.ahead.length ≤ s.ahead.length := by
  revert h
  cases op <;> simp only [perform, load, finish] <;> intro h <;> grind

theorem length_of_step {constants : List Constant} {s t : Progress}
    (h : step constants s = .running t) : t.ahead.length < s.ahead.length := by
  revert h
  simp only [step, finish]
  split
  · split <;> simp
  · rename_i hs
    split
    · simp
    · intro h
      have := length_of_perform h
      simp only [hs, List.length_cons] at this ⊢
      omega

/-- Steps until the run stops. -/
def run (constants : List Constant) (s : Progress) : Except Fault Value × Progress :=
  match _h : step constants s with
  | .running t => run constants t
  | .stopped outcome t => (outcome, t)
termination_by s.ahead.length
decreasing_by exact length_of_step _h

theorem run_of_running {constants : List Constant} {s t : Progress} (h : step constants s = .running t) :
    run constants s = run constants t := by
  rw [run]; split <;> simp_all

theorem run_of_stopped {constants : List Constant} {s t : Progress} {outcome : Except Fault Value}
    (h : step constants s = .stopped outcome t) : run constants s = (outcome, t) := by
  rw [run]; split <;> simp_all

end Progress

/-- The chunk of a run and the position that the run reached. -/
structure Frame where
  chunk : Chunk
  ip : Nat

structure Machine where
  /-- Top first. -/
  stack : List Value := []
  /-- Earliest run first. -/
  frames : List Frame := []

namespace Machine

abbrev Action := Stateful Machine

def push (v : Value) : Action Unit := modify fun m => { m with stack := v :: m.stack }

def pop : Action Value := fun m =>
  match m.stack with
  | [] => .error .stackUnderflow m
  | top :: below => .ok top { m with stack := below }

/-- The value `depth` places below the top; negative depths count from the bottom, `-1` being the
lowest value. -/
def peek (depth : Int) : Action Value := fun m =>
  let found := if 0 ≤ depth then m.stack[depth.toNat]? else m.stack.reverse[(-1 - depth).toNat]?
  match found with
  | some v => .ok v m
  | none => .error .indexOutOfRange m

/-- Runs a chunk on the stack as it is. -/
def run (chunk : Chunk) : Action Value := fun m =>
  let (outcome, s) := Progress.run chunk.constants ⟨chunk.code, 0, m.stack⟩
  let after : Machine := ⟨s.stack, m.frames ++ [⟨chunk, s.ip⟩]⟩
  match outcome with
  | .ok v => .ok v after
  | .error fault => .error fault after

end Machine

/-- The outcome of a run on a new machine. -/
def Chunk.run (chunk : Chunk) : Except Fault Value :=
  (Progress.run chunk.constants ⟨chunk.code, 0, []⟩).1

end ScalarScript
