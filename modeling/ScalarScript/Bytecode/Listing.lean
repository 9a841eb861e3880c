import ScalarScript.Bytecode.Chunk

/-! Listings of chunks: a line per instruction with its position, then a line per constant. -/
namespace ScalarScript

/-- A number in decimal, with zeros in front up to four places. -/
def positionText (n : Nat) : String :=
  let digits := Nat.toDigits 10 n
  String.ofList (List.replicate (4 - digits.length) '0' ++ digits)

/-- The name of an opcode byte; unknown ones are named by their two hexadecimal digits. -/
def opcodeText (byte : UInt8) : String :=
  match Opcode.ofByte? byte with
  | some op => op.name
  | none => "OP_" ++ String.ofList ((Text.hex 2 byte.toNat).map Char.toUpper)

/-- The lines of the code from a position on. A push has to be whole. -/
def codeLines (start : Nat) : List UInt8 → Except Fault (List String)
  | [] => .ok []
  | byte :: rest =>
    let line := positionText start ++ ": " ++ opcodeText byte
    if byte = Opcode.pushConst.toByte then
      match rest with
      | high :: low :: rest => do
        let lines ← codeLines (start + 3) rest
        return (line ++ " " ++ toString (wordOf high low)) :: lines
      | _ => .error .indexOutOfRange
    else do
      let lines ← codeLines (start + 1) rest
      return line :: lines

def constantLine (index : Nat) (c : Constant) : Except Fault String := do
  return "[" ++ toString index ++ "] " ++ (← c.inspect)

def Chunk.listing (chunk : Chunk) : Except Fault String := do
  let lines ← codeLines 0 chunk.code
  let entries ← chunk.constants.zipIdx.mapM fun (c, index) => constantLine index c
  return "\n".intercalate (lines ++ "-- constants --" :: entries)

end ScalarScript
