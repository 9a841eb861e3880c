/-! Blank characters at the ends of a text. -/
namespace ScalarScript.Text

/-- The blanks: controls that move the cursor, separators, and the spaces that have a width. -/
def isBlank (c : Char) : Bool :=
  let n := c.toNat
  (0x9 ≤ n && n ≤ 0xd) || (0x1c ≤ n && n ≤ 0x20) || n == 0x85 || n == 0xa0 || n == 0x1680 ||
    (0x2000 ≤ n && n ≤ 0x200a) || n == 0x2028 || n == 0x2029 || n == 0x202f || n == 0x205f || n == 0x3000

/-- The text without the blanks at either end. -/
def trim (cs : List Char) : List Char :=
  ((cs.dropWhile isBlank).reverse.dropWhile isBlank).reverse

/-- Small letters for the capitals `A` to `Z`; other characters stay. -/
def lower (cs : List Char) : List Char := cs.map Char.toLower

end ScalarScript.Text
