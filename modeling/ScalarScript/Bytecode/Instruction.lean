import ScalarScript.Bytecode.Opcode

/-! Instructions as bytes. An opcode byte is followed by no operand, except that `pushConst` takes a
constant's index in two bytes, high byte first. Decoding accepts any bytes: unknown opcodes stand for
themselves, and a push cut short by the end keeps what operand bytes there are. -/
namespace ScalarScript

/-- The two bytes of a word, high byte first; only the low 16 bits of the number count. -/
def wordBytes (n : Nat) : List UInt8 := [UInt8.ofNat (n / 256), UInt8.ofNat n]

def wordOf (high low : UInt8) : Nat := high.toNat * 256 + low.toNat

theorem wordOf_wordBytes {n : Nat} (h : n < 65536) :
    wordOf (UInt8.ofNat (n / 256)) (UInt8.ofNat n) = n := by
  simp only [wordOf, UInt8.toNat_ofNat']
  omega

theorem wordOf_lt (high low : UInt8) : wordOf high low < 65536 := by
  have := high.toNat_lt
  have := low.toNat_lt
  simp only [wordOf]
  omega

structure Instruction where
  opcode : UInt8
  operands : List UInt8
  deriving DecidableEq

namespace Instruction

def bytes (i : Instruction) : List UInt8 := i.opcode :: i.operands

def is (i : Instruction) (op : Opcode) : Bool := i.opcode == op.toByte

/-- The push of the constant at an index. -/
def push (index : Nat) : Instruction := ⟨Opcode.pushConst.toByte, wordBytes index⟩

/-- The index that a push carries, if its operand is whole. -/
def index? (i : Instruction) : Option Nat :=
  match i.operands with
  | high :: low :: _ => some (wordOf high low)
  | _ => none

end Instruction

/-- The instructions of a byte string with their positions, counted from `start`. -/
def decodeFrom (start : Nat) : List UInt8 → List (Nat × Instruction)
  | [] => []
  | byte :: rest =>
    if byte = Opcode.pushConst.toByte then
      match rest with
      | high :: low :: rest => (start, ⟨byte, [high, low]⟩) :: decodeFrom (start + 3) rest
      | operands => [(start, ⟨byte, operands⟩)]
    else (start, ⟨byte, []⟩) :: decodeFrom (start + 1) rest

def decode (code : List UInt8) : List Instruction := (decodeFrom 0 code).map Prod.snd

def assemble (instructions : List Instruction) : List UInt8 := instructions.flatMap Instruction.bytes

end ScalarScript
