import MicroFlow.Text.Decimal
import MicroFlow.Text.Hex

/-!
# Numerals in several bases

A numeral is an optional sign and digits.  `0b`, `0o` and `0x` in front of the digits
announce base 2, 8 and 16, a lone zero announces base 8.  Underscores may stand between
digits, and between the announcement and the first digit.
-/

namespace MicroFlow.Text

/-- The base that a numeral without sign announces, and its digits. -/
def announcedBase : List Char → Nat × List Char
  | '0' :: c :: d :: rest =>
    if c == 'b' || c == 'B' then (2, d :: rest)
    else if c == 'o' || c == 'O' then (8, d :: rest)
    else if c == 'x' || c == 'X' then (16, d :: rest)
    else (8, c :: d :: rest)
  | '0' :: rest => (8, rest)
  | cs => (10, cs)

/-- The value of digits; underscores are passed over.  It has to fit into 64 bits. -/
def valueInBase (base : Nat) : List Char → Nat → Except NumeralError Nat
  | [], n => .ok n
  | c :: rest, n =>
    if c == '_' then valueInBase base rest n
    else
      match hexValue? c with
      | none => .error .malformed
      | some d =>
        if base ≤ d then .error .malformed
        else if 2 ^ 64 ≤ n * base + d then .error .range
        else valueInBase base rest (n * base + d)

/-- Every underscore has a digit on both sides; `afterDigit` tells what stands before. -/
def underscoresFit : List Char → Bool → Bool
  | [], _ => true
  | '_' :: rest, afterDigit => afterDigit && !rest.isEmpty && underscoresFit rest false
  | _ :: rest, _ => underscoresFit rest true

/-- Whether the underscores of a numeral without sign are in their places. -/
def underscoresAllowed : List Char → Bool
  | '0' :: c :: rest =>
    if "bBoOxX".toList.contains c then underscoresFit rest true else underscoresFit
      ('0' :: c :: rest) false
  | cs => underscoresFit cs false

def readNumeral (text : String) : Except NumeralError Int := do
  let (negative, body) :=
    match text.toList with
    | '-' :: rest => (true, rest)
    | '+' :: rest => (false, rest)
    | rest => (false, rest)
  if body.isEmpty then .error .malformed
  else
    let (base, digits) := announcedBase body
    let n ← valueInBase base digits 0
    if !underscoresAllowed body then .error .malformed
    else
      let value : Int := if negative then -(n : Int) else n
      if value < minInt || maxInt < value then .error .range else return value

end MicroFlow.Text
