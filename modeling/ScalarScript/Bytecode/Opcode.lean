import ScalarScript.Operator

/-! Opcodes, their bytes and their names. -/
namespace ScalarScript

inductive Opcode where
  | nop | pushConst | pop | binary (op : Operator) | halt
  deriving DecidableEq

namespace Opcode

def all : List Opcode := nop :: pushConst :: pop :: halt :: Operator.all.map binary

def toByte : Opcode → UInt8
  | nop => 0x00
  | pushConst => 0x05
  | pop => 0x07
  | binary .add => 0x60
  | binary .subtract => 0x61
  | binary .multiply => 0x62
  | binary .divide => 0x63
  | binary .remainder => 0x64
  | binary .less => 0x65
  | binary .lessEqual => 0x66
  | binary .greater => 0x67
  | binary .greaterEqual => 0x68
  | binary .equal => 0x69
  | binary .notEqual => 0x6a
  | binary .and => 0x6c
  | binary .or => 0x6d
  | halt => 0xff

def ofByte? (byte : UInt8) : Option Opcode := all.find? (·.toByte == byte)

def name : Opcode → String
  | nop => "NOP"
  | pushConst => "PUSH_CONST"
  | pop => "POP"
  | binary .add => "ADD"
  | binary .subtract => "SUB"
  | binary .multiply => "MUL"
  | binary .divide => "DIV"
  | binary .remainder => "MOD"
  | binary .less => "LT"
  | binary .lessEqual => "LE"
  | binary .greater => "GT"
  | binary .greaterEqual => "GE"
  | binary .equal => "EQ"
  | binary .notEqual => "NEQ"
  | binary .and => "AND"
  | binary .or => "OR"
  | halt => "HALT"

def ofName? (s : String) : Option Opcode := all.find? (·.name == s)

@[simp] theorem ofByte?_toByte (op : Opcode) : ofByte? op.toByte = some op := by
  cases op with
  | binary op => cases op <;> decide
  | _ => decide

theorem toByte_of_ofByte? {byte : UInt8} {op : Opcode} (h : ofByte? byte = some op) : op.toByte = byte := by
  simpa using List.find?_some h

end Opcode
end ScalarScript
