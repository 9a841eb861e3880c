/-! The two fixed widths of signed integers. -/
namespace ScalarScript

-- Powers are the ones of the core library, whatever else is imported.
attribute [local instance (high)] instPowNat

inductive Width where
  | int32 | int64
  deriving DecidableEq

namespace Width

def name : Width → String
  | int32 => "int32"
  | int64 => "int64"

def bits : Width → Nat
  | int32 => 32
  | int64 => 64

/-- Whether an integer lies in the signed range of the width. -/
def fits (w : Width) (n : Int) : Bool := -(2 : Int) ^ (w.bits - 1) ≤ n && n < (2 : Int) ^ (w.bits - 1)

end Width
end ScalarScript
