import MicroFlow.Data.Basic
import MicroFlow.Yaml.Cursor
import MicroFlow.Yaml.Scalar

/-!
# Writing YAML

Records and lists are written in block style, one entry per line, and empty ones as
brackets.  A text is written

* as a literal block, if it holds a line feed and every line can be kept as it is;
* without quotes, if it then reads back as the same text;
* in double quotes, if without them it would be something else than a text, or if it
  holds characters that have to be escaped;
* in single quotes otherwise.

A line that follows a break inside a text is indented like the lines of a block.
-/

namespace MicroFlow.Yaml

/-- Characters that can stand in the output as they are. -/
def isPrintable (c : Char) : Bool :=
  let n := c.toNat
  n == 0x0a || (0x20 ≤ n && n ≤ 0x7e) || (0xa0 ≤ n && n ≤ 0xd7ff) ||
    (0xe000 ≤ n && n ≤ 0xfffd && n != 0xfeff)

/-! ## Which style a text takes -/

/-- The ways to write a text. -/
inductive Style where
  | plain
  | single
  | double
  | literal
deriving DecidableEq, Repr

/-- What matters about a text for the choice of its style. -/
structure TextTraits where
  /-- It holds something that has a meaning outside quotes. -/
  indicators : Bool := false
  breaks : Bool := false
  /-- It holds characters that have to be escaped. -/
  special : Bool := false
  tabs : Bool := false
  leadingSpace : Bool := false
  leadingBreak : Bool := false
  trailingSpace : Bool := false
  trailingBreak : Bool := false
  breakSpace : Bool := false
  spaceBreak : Bool := false
deriving Repr

/-- Characters that cannot start a text without quotes. -/
def isLeadingIndicator (c : Char) : Bool :=
  "#,[]\x7b\x7d&*!|>'\"%@\x60".toList.contains c

/-- Whether a character has a meaning at its place outside quotes. -/
def isIndicatorAt (prev : Option Char) (c : Char) (next : Option Char) : Bool :=
  match prev with
  | none => isLeadingIndicator c || ((c == '?' || c == ':' || c == '-') && isGap next)
  | some p => (c == ':' && isGap next) || (c == '#' && isGap (some p))

/-- The traits that a character adds, given its neighbours. -/
def traitsAt (t : TextTraits) (prev : Option Char) (c : Char) (next : Option Char) : TextTraits :=
  { indicators := t.indicators || isIndicatorAt prev c next
    breaks := t.breaks || isBreak c
    special := t.special || (c != '\t' && !isPrintable c)
    tabs := t.tabs || c == '\t'
    leadingSpace := t.leadingSpace || (prev.isNone && c == ' ')
    leadingBreak := t.leadingBreak || (prev.isNone && isBreak c)
    trailingSpace := t.trailingSpace || (next.isNone && c == ' ')
    trailingBreak := t.trailingBreak || (next.isNone && isBreak c)
    breakSpace := t.breakSpace || (c == ' ' && prev.any isBreak)
    spaceBreak := t.spaceBreak || (isBreak c && prev == some ' ') }

def traitsFrom (t : TextTraits) (prev : Option Char) : List Char → TextTraits
  | [] => t
  | c :: rest => traitsFrom (traitsAt t prev c rest.head?) (some c) rest

def traits (cs : List Char) : TextTraits :=
  traitsFrom { indicators := "---".toList.isPrefixOf cs || "...".toList.isPrefixOf cs } none cs

/-- The text can stand without quotes. -/
def TextTraits.plainAllowed (t : TextTraits) : Bool :=
  !(t.indicators || t.breaks || t.special || t.tabs || t.leadingSpace || t.leadingBreak ||
    t.trailingSpace || t.trailingBreak)

/-- The text can stand in single quotes. -/
def TextTraits.singleAllowed (t : TextTraits) : Bool :=
  !(t.special || t.tabs || t.spaceBreak || t.breakSpace)

/-- The text can stand in a literal block. -/
def TextTraits.blockAllowed (t : TextTraits) : Bool :=
  !(t.special || t.trailingSpace || t.spaceBreak)

/-- The style of a text. -/
def styleOf (s : String) : Style :=
  let t := traits s.toList
  if s.toList.contains '\n' then
    if t.blockAllowed then .literal else .double
  else if !readsAsText s then .double
  else if t.plainAllowed then .plain
  else if t.singleAllowed then .single
  else .double

/-! ## Texts -/

/-- A code point in upper case hexadecimal digits. -/
def upperHex (width n : Nat) : List Char :=
  (List.range width).reverse.map fun i => (Text.hexDigit ((n >>> (4 * i)) % 16)).toUpper

/-- A character as an escape. -/
def escapeChar (c : Char) : List Char :=
  let n := c.toNat
  if c == '"' then ['\\', '"']
  else if c == '\\' then ['\\', '\\']
  else if n == 0 then ['\\', '0']
  else if n == 7 then ['\\', 'a']
  else if n == 8 then ['\\', 'b']
  else if n == 9 then ['\\', 't']
  else if n == 10 then ['\\', 'n']
  else if n == 11 then ['\\', 'v']
  else if n == 12 then ['\\', 'f']
  else if n == 13 then ['\\', 'r']
  else if n == 0x1b then ['\\', 'e']
  else if n == 0x85 then ['\\', 'N']
  else if n == 0xa0 then ['\\', '_']
  else if n == 0x2028 then ['\\', 'L']
  else if n == 0x2029 then ['\\', 'P']
  else if n ≤ 0xff then '\\' :: 'x' :: upperHex 2 n
  else if n ≤ 0xffff then '\\' :: 'u' :: upperHex 4 n
  else '\\' :: 'U' :: upperHex 8 n

/-- Whether a character stands as it is between double quotes. -/
def standsInDouble (c : Char) : Bool := isPrintable c && !isBreak c && c != '"' && c != '\\'

/-- A text in double quotes.  Behind a mark at its start everything is escaped. -/
def doubleQuoted (s : String) : String :=
  let marked := s.toList.head?.any isMark
  let body := s.toList.flatMap fun c => if !marked && standsInDouble c then [c] else escapeChar c
  String.ofList ('"' :: body ++ ['"'])

/-- So many spaces. -/
def spaces (n : Nat) : String := String.ofList (List.replicate n ' ')

/-- The lines of a text, each with its indentation unless it is empty or goes on. -/
def indentLines (indent : Nat) : Bool → List Char → List Char
  | _, [] => []
  | atStart, c :: rest =>
    if isBreak c then c :: indentLines indent true rest
    else if atStart then (List.replicate indent ' ') ++ c :: indentLines indent false rest
    else c :: indentLines indent false rest

/-- A text in single quotes, where a quote is written twice. -/
def singleQuoted (indent : Nat) (s : String) : String :=
  let doubled := s.toList.flatMap fun c => if c == '\'' then ['\'', '\''] else [c]
  String.ofList ('\'' :: indentLines indent false doubled ++ ['\''])

/-- What the header of a literal block says about the line breaks at its end. -/
def chomping (cs : List Char) : String :=
  match cs.reverse with
  | [] => "-"
  | [c] => if isBreak c then "+" else "-"
  | c :: d :: _ => if !isBreak c then "-" else if isBreak d then "+" else ""

/--
A text as a literal block whose lines start at a column.  A line break in front of the
text ends the header.
-/
def literalBlock (unit indent : Nat) (s : String) : String :=
  let cs := s.toList
  let breakFirst := cs.head?.any isBreak
  let hint := if breakFirst || cs.head? == some ' ' then toString unit else ""
  let body := indentLines indent true cs
  "|" ++ hint ++ chomping cs ++ (if breakFirst then "" else "\n") ++ String.ofList body

/-- A text behind a key or a dash, at a level of indentation. -/
def textAt (unit indent : Nat) (s : String) : String :=
  match styleOf s with
  | .plain => s
  | .single => singleQuoted indent s
  | .double => doubleQuoted s
  | .literal => literalBlock unit indent s

/-- Ends the last line of a text, unless a break ends it already. -/
def endLine (s : String) : String := if s.toList.getLast?.any isBreak then s else s ++ "\n"

/-! ## Values -/

mutual

/--
A value behind a key whose line starts at a column: a blank and the value, or the lines
of a block below.  `unit` is the width of one level.
-/
def valueAt (unit column : Nat) : Data → String
  | .null => " null\n"
  | .bool b => if b then " true\n" else " false\n"
  | .int n => " " ++ toString n ++ "\n"
  | .text s => " " ++ endLine (textAt unit (column + unit) s)
  | .list [] => " []\n"
  | .list items => "\n" ++ String.join (itemLines unit (column + unit) items)
  | .record [] => " \x7b\x7d\n"
  | .record fields =>
    "\n" ++ String.join ((fieldLines unit (column + unit) fields).map (spaces (column + unit) ++ ·))

/-- The items of a list whose dashes stand at a column. -/
def itemLines (unit column : Nat) : List Data → List String
  | [] => []
  | d :: rest => (spaces column ++ itemText unit column d) :: itemLines unit column rest

/-- An item with its dash. -/
def itemText (unit column : Nat) : Data → String
  | .null => "- null\n"
  | .bool b => if b then "- true\n" else "- false\n"
  | .int n => "- " ++ toString n ++ "\n"
  | .text s => "- " ++ endLine (textAt unit (column + 2) s)
  | .list [] => "- []\n"
  | .list (d :: rest) =>
    "- " ++ itemText unit (column + 2) d ++ String.join (itemLines unit (column + 2) rest)
  | .record [] => "- \x7b\x7d\n"
  | .record fields =>
    "- " ++ (spaces (column + 2)).intercalate (fieldLines unit (column + 2) fields)

/-- The fields of a record whose keys stand at a column, without that indentation. -/
def fieldLines (unit column : Nat) : List (String × Data) → List String
  | [] => []
  | (key, d) :: rest => (key ++ ":" ++ valueAt unit column d) :: fieldLines unit column rest

end

/-- A value as a document. -/
def write (unit : Nat) : Data → String
  | .record [] => "\x7b\x7d\n"
  | .record fields => String.join (fieldLines unit 0 fields)
  | .list [] => "[]\n"
  | .list items => String.join (itemLines unit 0 items)
  | d => ((valueAt unit 0 d).drop 1).toString

end MicroFlow.Yaml
