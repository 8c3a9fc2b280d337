import MicroFlow.Data.Basic
import MicroFlow.Text.Hex

/-!
# Writing JSON

Two layouts: everything on one line, or one item per line with two spaces of
indentation per level.  In texts the characters `<`, `>` and `&`, the line and
paragraph separators and all control characters below the space are escaped, so that
the output can stand inside a web page.
-/

namespace MicroFlow.Json

/-- A code point as `\u` and four digits. -/
def unicodeEscape (n : Nat) : List Char :=
  ['\\', 'u', Text.hexDigit (n / 4096 % 16), Text.hexDigit (n / 256 % 16),
    Text.hexDigit (n / 16 % 16), Text.hexDigit (n % 16)]

/-- What is written for a character of a text. -/
def escapeChar (c : Char) : List Char :=
  if c == '"' then ['\\', '"']
  else if c == '\\' then ['\\', '\\']
  else if c == '\x08' then ['\\', 'b']
  else if c == '\x0c' then ['\\', 'f']
  else if c == '\n' then ['\\', 'n']
  else if c == '\r' then ['\\', 'r']
  else if c == '\t' then ['\\', 't']
  else if c.toNat < 0x20 || c == '<' || c == '>' || c == '&' ||
      c.toNat == 0x2028 || c.toNat == 0x2029 then
    unicodeEscape c.toNat
  else [c]

/-- A text in quotes. -/
def quote (s : String) : String :=
  String.ofList ('"' :: s.toList.flatMap escapeChar ++ ['"'])

mutual

/-- A value on one line. -/
def compact : Data → String
  | .null => "null"
  | .bool b => if b then "true" else "false"
  | .int n => toString n
  | .text s => quote s
  | .list items => "[" ++ ",".intercalate (compactItems items) ++ "]"
  | .record fields => "\x7b" ++ ",".intercalate (compactFields fields) ++ "\x7d"

def compactItems : List Data → List String
  | [] => []
  | d :: rest => compact d :: compactItems rest

def compactFields : List (String × Data) → List String
  | [] => []
  | (key, d) :: rest => (quote key ++ ":" ++ compact d) :: compactFields rest

end

/-- The start of a line at a level of nesting. -/
def newline (depth : Nat) : String := "\n" ++ String.join (List.replicate depth "  ")

/-- Parts between brackets, one per line; without parts the brackets stand together. -/
def enclose (opening closing : String) (depth : Nat) (parts : List String) : String :=
  if parts.isEmpty then opening ++ closing
  else
    opening ++ newline (depth + 1) ++ ("," ++ newline (depth + 1)).intercalate parts ++
      newline depth ++ closing

mutual

/-- A value at a level of nesting, one item per line. -/
def indentedAt (depth : Nat) : Data → String
  | .null => "null"
  | .bool b => if b then "true" else "false"
  | .int n => toString n
  | .text s => quote s
  | .list items => enclose "[" "]" depth (indentedItems (depth + 1) items)
  | .record fields => enclose "\x7b" "\x7d" depth (indentedFields (depth + 1) fields)

def indentedItems (depth : Nat) : List Data → List String
  | [] => []
  | d :: rest => indentedAt depth d :: indentedItems depth rest

def indentedFields (depth : Nat) : List (String × Data) → List String
  | [] => []
  | (key, d) :: rest => (quote key ++ ": " ++ indentedAt depth d) :: indentedFields depth rest

end

/-- A value with one item per line. -/
def indented (d : Data) : String := indentedAt 0 d

end MicroFlow.Json
