import MicroFlow.Text.Utf8

/-!
# Places in a YAML text

A cursor is the rest of a text with the line and column at which it starts.  Five
characters end a line; a carriage return and the line feed behind it count as one
break.  Line breaks inside a scalar are kept as line feeds, but for the two separators
of lines and paragraphs, which stay as they are.
-/

namespace MicroFlow.Yaml

/-- Characters that end a line. -/
def isBreak (c : Char) : Bool :=
  c == '\r' || c == '\n' || c.toNat == 0x85 || c.toNat == 0x2028 || c.toNat == 0x2029

/-- Blanks within a line. -/
def isBlank (c : Char) : Bool := c == ' ' || c == '\t'

/-- The end of a text, a blank or a line break. -/
def isGap : Option Char → Bool
  | none => true
  | some c => isBlank c || isBreak c

/-- The end of a text or a line break. -/
def isLineEnd : Option Char → Bool
  | none => true
  | some c => isBreak c

/-- The rest of a text and where it starts. -/
structure Cursor where
  rest : List Char
  line : Nat := 1
  column : Nat := 0
  /-- The number of characters before it. -/
  index : Nat := 0
deriving Repr

namespace Cursor

/-- The character at a distance. -/
def peek (c : Cursor) (n : Nat) : Option Char := c.rest[n]?

/-- The next character. -/
def head? (c : Cursor) : Option Char := c.rest.head?

/-- The next character is this one. -/
def sees (c : Cursor) (x : Char) : Bool := c.head? == some x

/-- Moves over so many characters of a line. -/
def advance (c : Cursor) (n : Nat) : Cursor :=
  { c with rest := c.rest.drop n, column := c.column + n, index := c.index + n }

/-- Moves over a line break. -/
def advanceLine (c : Cursor) : Cursor :=
  let n := if c.peek 0 == some '\r' && c.peek 1 == some '\n' then 2 else 1
  { rest := c.rest.drop n, line := c.line + 1, column := 0, index := c.index + n }

/-- Moves over the characters of a line as long as they are of a kind. -/
def skipWhile (p : Char → Bool) (c : Cursor) : Cursor := c.advance (c.rest.takeWhile p).length

/-- Moves to the end of the line. -/
def skipLine (c : Cursor) : Cursor := c.skipWhile fun x => !isBreak x

/-- The characters of a kind that come next. -/
def takeWhile (p : Char → Bool) (c : Cursor) : List Char := c.rest.takeWhile p

/-- What a line break counts as inside a scalar. -/
def breakText (c : Cursor) : List Char :=
  match c.head? with
  | none => []
  | some x => if x.toNat == 0x2028 || x.toNat == 0x2029 then [x] else ['\n']

/-- A line with three characters of a kind and a gap, which starts or ends a document. -/
def atMarker (c : Cursor) : Bool :=
  c.column == 0 && isGap (c.peek 3) &&
    ("---".toList.isPrefixOf c.rest || "...".toList.isPrefixOf c.rest)

end Cursor

/-! ## Texts from bytes -/

/-- Characters that may occur in a YAML text. -/
def isAllowed (c : Char) : Bool :=
  let n := c.toNat
  n == 0x09 || n == 0x0a || n == 0x0d || (0x20 ≤ n && n ≤ 0x7e) || n == 0x85 ||
    (0xa0 ≤ n && n ≤ 0xfffd) || 0x10000 ≤ n

/-- The mark that can stand at the start of a text. -/
def isMark (c : Char) : Bool := c.toNat == 0xfeff

/-- Two bytes make a unit; `high` tells whether the first is the higher one. -/
def unitsOf (high : Bool) : Text.Bytes → Option (List Nat)
  | [] => some []
  | [_] => none
  | a :: b :: rest => do
    let unit := if high then a.toNat * 256 + b.toNat else b.toNat * 256 + a.toNat
    return unit :: (← unitsOf high rest)

/-- The characters of units; a surrogate needs its partner. -/
def charsOfUnits : List Nat → Option (List Char)
  | [] => some []
  | u :: rest =>
    if 0xdc00 ≤ u ∧ u < 0xe000 then none
    else if 0xd800 ≤ u ∧ u < 0xdc00 then
      match rest with
      | v :: rest => do
        if 0xdc00 ≤ v ∧ v < 0xe000 then
          return Char.ofNat (0x10000 + (u - 0xd800) * 0x400 + (v - 0xdc00)) :: (← charsOfUnits rest)
        else none
      | [] => none
    else do return Char.ofNat u :: (← charsOfUnits rest)

/-- The characters of a text: UTF-8, or UTF-16 if a mark says so. -/
def charsOf (bytes : Text.Bytes) : Option (List Char) := do
  let cs ← match bytes with
    | 0xff :: 0xfe :: rest => do charsOfUnits (← unitsOf false rest)
    | 0xfe :: 0xff :: rest => do charsOfUnits (← unitsOf true rest)
    | _ =>
      match (← Text.ofBytes? bytes).toList with
      | c :: rest => pure (if isMark c then rest else c :: rest)
      | [] => pure []
  if cs.all isAllowed then some cs else none

end MicroFlow.Yaml
