import MicroFlow.Text.Utf8

/-!
# White space

`isBlank` is the Unicode property White_Space.  `trimList` drops it from both ends of a
text, `trimBytes` from both ends of bytes that need not be well-formed UTF-8.
-/

namespace MicroFlow.Text

/-- The code points with the Unicode property White_Space. -/
def isBlank (c : Char) : Bool :=
  let n := c.toNat
  (9 ≤ n && n ≤ 13) || n == 0x20 || n == 0x85 || n == 0xa0 || n == 0x1680 ||
    (0x2000 ≤ n && n ≤ 0x200a) || n == 0x2028 || n == 0x2029 || n == 0x202f ||
    n == 0x205f || n == 0x3000

/-- Drops the blanks at both ends of a list of characters. -/
def trimList (cs : List Char) : List Char :=
  ((cs.dropWhile isBlank).reverse.dropWhile isBlank).reverse

/-- Drops the blanks at both ends of a byte string; a malformed byte is none. -/
def trimBytes (bytes : Bytes) : Bytes :=
  let blank (u : Option Char × Bytes) : Bool := u.1.any isBlank
  (((units bytes).dropWhile blank).reverse.dropWhile blank).reverse.flatMap Prod.snd

end MicroFlow.Text
