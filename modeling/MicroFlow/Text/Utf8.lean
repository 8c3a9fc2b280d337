/-!
# Text as bytes and as code points

Programs, configuration files and saved reports arrive as bytes, and the bytes
need not be well-formed UTF-8.  This module reads a byte string as a sequence of
code points.  A byte that starts no well-formed sequence stands for itself: it is
one code point wide and decodes to nothing.

* `decode`   : the code points, `none` for every malformed byte.
* `units`    : the code points, each with its bytes.
* `ofBytes`  : the text, each malformed byte replaced by U+FFFD.
* `ofBytes?` : the text, when every byte belongs to a well-formed sequence.
* `toBytes`  : the UTF-8 form of a text.
-/

namespace MicroFlow.Text

/-- Text as it is stored: a list of bytes, not necessarily well-formed UTF-8. -/
abbrev Bytes := List UInt8

/-- Continuation bytes carry six payload bits behind the mark `10`. -/
def isContinuation (b : UInt8) : Bool := 0x80 ≤ b && b ≤ 0xbf

/-- The six payload bits of a continuation byte. -/
def payload (b : UInt8) : Nat := b.toNat % 64

/--
The code point that starts with byte `a` and continues in `rest`, and the number
of bytes it takes.  Overlong forms, surrogates, values above U+10FFFF and
truncated sequences are malformed: they decode to `none` and take one byte.
-/
def decodeHead (a : UInt8) (rest : Bytes) : Option Char × Nat :=
  if a < 0x80 then (some (Char.ofNat a.toNat), 1)
  else if 0xc2 ≤ a && a ≤ 0xdf then
    match rest with
    | b :: _ =>
      if isContinuation b then (some (Char.ofNat (a.toNat % 32 * 64 + payload b)), 2)
      else (none, 1)
    | _ => (none, 1)
  else if 0xe0 ≤ a && a ≤ 0xef then
    match rest with
    | b :: c :: _ =>
      let low : UInt8 := if a == 0xe0 then 0xa0 else 0x80
      let high : UInt8 := if a == 0xed then 0x9f else 0xbf
      if low ≤ b && b ≤ high && isContinuation c then
        (some (Char.ofNat ((a.toNat % 16 * 64 + payload b) * 64 + payload c)), 3)
      else (none, 1)
    | _ => (none, 1)
  else if 0xf0 ≤ a && a ≤ 0xf4 then
    match rest with
    | b :: c :: d :: _ =>
      let low : UInt8 := if a == 0xf0 then 0x90 else 0x80
      let high : UInt8 := if a == 0xf4 then 0x8f else 0xbf
      if low ≤ b && b ≤ high && isContinuation c && isContinuation d then
        (some (Char.ofNat (((a.toNat % 8 * 64 + payload b) * 64 + payload c) * 64 + payload d)), 4)
      else (none, 1)
    | _ => (none, 1)
  else (none, 1)

/-- Decodes a byte string of which the first `skip` bytes are already accounted for. -/
def decodeFrom : Nat → Bytes → List (Option Char)
  | _, [] => []
  | skip + 1, _ :: rest => decodeFrom skip rest
  | 0, a :: rest =>
    let (c, width) := decodeHead a rest
    c :: decodeFrom (width - 1) rest

/-- The code points of a byte string, `none` for every malformed byte. -/
def decode (bytes : Bytes) : List (Option Char) := decodeFrom 0 bytes

/-- The code points behind the first `skip` bytes, each with its bytes. -/
def unitsFrom : Nat → Bytes → List (Option Char × Bytes)
  | _, [] => []
  | skip + 1, _ :: rest => unitsFrom skip rest
  | 0, a :: rest =>
    let (c, width) := decodeHead a rest
    (c, a :: rest.take (width - 1)) :: unitsFrom (width - 1) rest

/-- The code points of a byte string with the bytes of each. -/
def units (bytes : Bytes) : List (Option Char × Bytes) := unitsFrom 0 bytes

/-- What a malformed byte is shown as. -/
def replacement : Char := '�'

/-- The text of a byte string, with U+FFFD for every malformed byte. -/
def ofBytes (bytes : Bytes) : String :=
  String.ofList ((decode bytes).map fun c => c.getD replacement)

/-- The text of a byte string that is well-formed UTF-8. -/
def ofBytes? (bytes : Bytes) : Option String :=
  (decode bytes).mapM id |>.map String.ofList

def toBytes (text : String) : Bytes := text.toUTF8.toList

/-- Where bytes are asked for, a text stands for its UTF-8 form. -/
instance : Coe String Bytes := ⟨toBytes⟩

end MicroFlow.Text
