import ScalarScript.Bytecode.Chunk
import ScalarScript.Operator.Apply

/-! Optimization of chunks: constant folding, which replaces an operator over two constant pushes by
the push of its result; removal of unused constants, which numbers the table anew in order of first
use; and a pass that removes idle instructions. An application that fails in the language stays in
the code, so that the failure comes when the code runs. -/
namespace ScalarScript

/-- The constant that an operator makes of two. -/
def Operator.combine (op : Operator) (a b : Constant) : Except Fault Constant := do
  let x ← a.toValue
  let y ← b.toValue
  let outcome ← op.apply x y
  return .ofValue outcome.toValue

namespace Instruction

/-- The constant that an instruction pushes; a push has to refer to an entry of the table. -/
def constant? (i : Instruction) (table : List Constant) : Except Fault (Option Constant) :=
  if i.is .pushConst then
    match i.index?.bind (table[·]?) with
    | some c => .ok (some c)
    | none => .error .indexOutOfRange
  else .ok none

/-- The instruction with its constant's position among the indices in use. -/
def renumber (used : List Nat) (i : Instruction) : Instruction :=
  match i.is .pushConst, i.index? with
  | true, some index => push (used.idxOf index)
  | _, _ => i

end Instruction

namespace Chunk

/-! ### Constant folding -/

/-- Puts an instruction after those done so far, the last of which comes first. -/
def foldStep (done : List Instruction) (i : Instruction) : Build (List Instruction) :=
  match Opcode.ofByte? i.opcode, done with
  | some (.binary op), right :: left :: before => do
    let table := (← get).constants
    let a ← Stateful.lift (left.constant? table)
    let b ← Stateful.lift (right.constant? table)
    match a, b with
    | some a, some b =>
      match op.combine a b with
      | .ok c => return .push (← addOperand c) :: before
      | .error fault => if fault.inLanguage then return i :: done else throw fault
    | _, _ => return i :: done
  | _, _ => return i :: done

/-- The indices in use, in order of first use. -/
def usedIndices (instructions : List Instruction) : Except Fault (List Nat) := do
  let indices ← (instructions.filter (·.is .pushConst)).mapM fun i =>
    match i.index? with
    | some index => Except.ok index
    | none => .error .indexOutOfRange
  return indices.eraseDups

/-- The chunk with a table of only the constants in use. -/
def withoutUnused (chunk : Chunk) : Except Fault Chunk := do
  let instructions := decode chunk.code
  let used ← usedIndices instructions
  let constants ← used.mapM fun index =>
    match chunk.constants[index]? with
    | some c => Except.ok c
    | none => .error .indexOutOfRange
  return ⟨assemble (instructions.map (·.renumber used)), constants⟩

def dropUnused : Build Unit := do
  set (← Stateful.lift (← get).withoutUnused)

def foldConstants : Build Unit := do
  let done ← (decode (← get).code).foldlM foldStep []
  modify fun chunk => { chunk with code := assemble done.reverse }
  dropUnused

/-! ### Idle instructions -/

/-- Leaves out `nop`, and every push that is popped at once. -/
def dropIdle : List Instruction → List Instruction
  | [] => []
  | [i] => if i.is .nop then [] else [i]
  | i :: next :: rest =>
    if i.is .nop then dropIdle (next :: rest)
    else if i.is .pushConst && next.is .pop then dropIdle rest
    else i :: dropIdle (next :: rest)

def withoutIdle (chunk : Chunk) : Chunk := { chunk with code := assemble (dropIdle (decode chunk.code)) }

/-- Folding, then removal of idle instructions. -/
def optimizeStep : Build Unit := do
  foldConstants
  modify withoutIdle

def optimize (chunk : Chunk) : Except Fault Chunk := optimizeStep.after chunk

end Chunk
end ScalarScript
