import MicroFlow.Text.Printable

/-!
# Quoted text

Names and other foreign text appear in messages between quotes, with a backslash
escape for the quote, the backslash and everything that is not printable.

* `quote`     : a text between double quotes.
* `quoteChar` : one character between single quotes.
-/

namespace MicroFlow.Text

/-- The digits of `n` in base 16, in lower case, at least `width` of them. -/
def hexDigits (width n : Nat) : String :=
  let digits := Nat.toDigits 16 n
  String.ofList (List.replicate (width - digits.length) '0' ++ digits)

/--
How a character is written between the quotes `mark`: the mark and the backslash
with a backslash before them, printable characters as they are, the seven short
escapes, and otherwise the code point with two, four or eight hexadecimal digits.
-/
def escapeChar (mark c : Char) : String :=
  if c == mark || c == '\\' then String.ofList ['\\', c]
  else if isPrintable c then String.singleton c
  else
    match c.toNat with
    | 7 => "\\a"
    | 8 => "\\b"
    | 9 => "\\t"
    | 10 => "\\n"
    | 11 => "\\v"
    | 12 => "\\f"
    | 13 => "\\r"
    | n =>
      if n < 0x20 || n == 0x7f then "\\x" ++ hexDigits 2 n
      else if n < 0x10000 then "\\u" ++ hexDigits 4 n
      else "\\U" ++ hexDigits 8 n

/-- A text between double quotes. -/
def quote (text : String) : String :=
  "\"" ++ String.join (text.toList.map (escapeChar '"')) ++ "\""

/-- A character between single quotes. -/
def quoteChar (c : Char) : String := "'" ++ escapeChar '\'' c ++ "'"

end MicroFlow.Text
