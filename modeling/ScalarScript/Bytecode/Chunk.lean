import ScalarScript.Bytecode.Instruction
import ScalarScript.Constant
import ScalarScript.Stateful

/-! Chunks of bytecode and their building. A chunk is code over a table of constants, where equal
keys share an entry. A build step that fails keeps what it had added before. -/
namespace ScalarScript

structure Chunk where
  code : List UInt8 := []
  constants : List Constant := []

/-- Steps that build on a chunk. -/
abbrev Build := Stateful Chunk

/-- The first position from `start` on of a constant with the key. Every entry before it has to have
a key. -/
def findKey (key : Tag × String) (start : Nat) : List Constant → Except Fault (Option Nat)
  | [] => .ok none
  | c :: rest =>
    match c.key with
    | .error fault => .error fault
    | .ok other => if other = key then .ok (some start) else findKey key (start + 1) rest

namespace Chunk

/-- The largest index that an operand can carry. -/
def maxIndex : Nat := 0xffff

def emitBytes (bytes : List UInt8) : Build Unit :=
  modify fun chunk => { chunk with code := chunk.code ++ bytes }

/-- Appends an opcode and gives its position. -/
def emitOpcode (op : Opcode) : Build Nat := do
  emitBytes [op.toByte]
  return (← get).code.length - 1

/-- Appends the low 16 bits of an integer. -/
def emitWord (n : Int) : Build Unit := emitBytes (wordBytes (n % 65536).toNat)

/-- The index of the constant's key in the table, where the constant goes last if its key is new. -/
def addConstant (c : Constant) : Build Nat := do
  let chunk ← get
  let key ← Stateful.lift c.key
  match ← Stateful.lift (findKey key 0 chunk.constants) with
  | some index => return index
  | none =>
    set { chunk with constants := chunk.constants ++ [c] }
    return chunk.constants.length

/-- Like `addConstant`, for an index that has to fit an operand. -/
def addOperand (c : Constant) : Build Nat := do
  let index ← addConstant c
  if maxIndex < index then throw (.tooManyConstants index)
  return index

/-- Appends the push of a constant. -/
def emitConstant (c : Constant) : Build Unit := do
  let index ← addOperand c
  emitBytes (Instruction.push index).bytes

end Chunk
end ScalarScript
