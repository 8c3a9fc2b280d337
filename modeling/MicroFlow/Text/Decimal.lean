/-!
# Whole numbers as text

Numbers are 64-bit signed integers: what lies outside that range is not a number.
`ofDigits` reads a run of decimal digits, `toInt?` a numeral with an optional sign.
-/

namespace MicroFlow.Text

/-- The largest 64-bit signed integer. -/
def maxInt : Int := 0x7fffffffffffffff

/-- The smallest 64-bit signed integer. -/
def minInt : Int := -0x8000000000000000

/-- The 64-bit signed integer with the same low 64 bits. -/
def wrap (n : Int) : Int := Int.bmod n (1 <<< 64)

def digitValue (c : Char) : Nat := c.toNat - '0'.toNat

/-- The value of a run of decimal digits, most significant first. -/
def ofDigits (digits : List Char) : Nat :=
  digits.foldl (fun n c => n * 10 + digitValue c) 0

/-- Why a numeral is not a number. -/
inductive NumeralError where
  /-- It is not an optional sign followed by digits. -/
  | malformed
  /-- Its value does not fit into 64 bits. -/
  | range
deriving DecidableEq, Repr

/-- Reads an optional sign followed by at least one decimal digit. -/
def readInt (text : String) : Except NumeralError Int :=
  let (negative, digits) :=
    match text.toList with
    | '-' :: rest => (true, rest)
    | '+' :: rest => (false, rest)
    | rest => (false, rest)
  if digits.isEmpty || !digits.all Char.isDigit then .error .malformed
  else
    let value : Int := if negative then -(ofDigits digits : Int) else ofDigits digits
    if value < minInt || maxInt < value then .error .range else .ok value

/-- The number a numeral stands for, if it stands for one. -/
def toInt? (text : String) : Option Int := (readInt text).toOption

end MicroFlow.Text
