import MicroFlow.Text.Hex
import MicroFlow.Yaml.Cursor

/-!
# Scalars that run over several lines

Between two words of a scalar stands a gap: blanks, which are kept, or line breaks with
the blanks around them.  A single break becomes a space; of several the first is
dropped.  In double quotes a backslash in front of a break takes it away.

Blocks of text keep their breaks as they are, or fold those between two lines that
do not start with a blank.
-/

namespace MicroFlow.Yaml

/-! ## Gaps -/

/-- How the first line break in a gap counts. -/
inductive FirstBreak where
  | none
  | escaped
  | kept (text : List Char)
deriving Repr

/-- What stands between two words. -/
structure Gap where
  blanks : List Char := []
  first : FirstBreak := .none
  others : List Char := []
deriving Repr

/-- A gap with a line break. -/
def Gap.breaks (g : Gap) : Bool :=
  match g.first with
  | .none => false
  | _ => true

/-- What a gap contributes to the scalar. -/
def Gap.text (g : Gap) : List Char :=
  match g.first with
  | .none => g.blanks
  | .escaped => g.others
  | .kept first =>
    if first == ['\n'] then if g.others.isEmpty then [' '] else g.others
    else first ++ g.others

/-- Adds the line break at a cursor. -/
def Gap.addBreak (g : Gap) (c : Cursor) : Gap :=
  match g.first with
  | .none => { blanks := [], first := .kept c.breakText, others := [] }
  | _ => { g with others := g.others ++ c.breakText }

/--
Reads a gap.  Behind a line break no tab may stand before the column `indent`.  `fuel`
bounds its length.
-/
def readGap (indent : Nat) : Nat → Gap → Cursor → Option (Gap × Cursor)
  | 0, _, _ => none
  | fuel + 1, g, c =>
    match c.head? with
    | none => some (g, c)
    | some x =>
      if isBlank x then
        if g.breaks then
          if x == '\t' && c.column < indent then none else readGap indent fuel g (c.advance 1)
        else readGap indent fuel { g with blanks := g.blanks ++ [x] } (c.advance 1)
      else if isBreak x then readGap indent fuel (g.addBreak c) c.advanceLine
      else some (g, c)

/-! ## Scalars without quotes -/

/-- Whether a scalar without quotes ends before a character. -/
def endsPlain (flow : Bool) (x : Char) (next : Option Char) : Bool :=
  (x == ':' && isGap next) || (flow && ",?[]\x7b\x7d".toList.contains x)

/-- The length of a word of a scalar without quotes. -/
def plainWord (flow : Bool) : List Char → Nat
  | [] => 0
  | x :: rest =>
    if isGap (some x) || endsPlain flow x rest.head? then 0 else plainWord flow rest + 1

/--
Reads a scalar without quotes.  The answer tells also whether line breaks follow it.
Its further lines have to start at the column `indent`, unless it stands between
brackets.
-/
def readPlain (flow : Bool) (indent : Nat) : Nat → List Char → Gap → Cursor →
    Option (List Char × Bool × Cursor)
  | 0, _, _, _ => none
  | fuel + 1, text, gap, c =>
    if c.atMarker || c.sees '#' then some (text, gap.breaks, c)
    else
      let n := plainWord flow c.rest
      let after := c.advance n
      let text' := if n = 0 then text else text ++ gap.text ++ c.rest.take n
      let gap' := if n = 0 then gap else {}
      if after.head?.isNone || !isGap after.head? then some (text', gap'.breaks, after)
      else
        match readGap indent (after.rest.length + 1) gap' after with
        | none => none
        | some (gap, next) =>
          if !flow && next.column < indent then some (text', gap.breaks, next)
          else readPlain flow indent fuel text' gap next

/-! ## Scalars in quotes -/

/-- The character of a short escape. -/
def shortEscape? : Char → Option Char
  | '0' => some '\x00'
  | 'a' => some '\x07'
  | 'b' => some '\x08'
  | 't' => some '\t'
  | '\t' => some '\t'
  | 'n' => some '\n'
  | 'v' => some '\x0b'
  | 'f' => some '\x0c'
  | 'r' => some '\r'
  | 'e' => some '\x1b'
  | ' ' => some ' '
  | '"' => some '"'
  | '\'' => some '\''
  | '\\' => some '\\'
  | 'N' => some (Char.ofNat 0x85)
  | '_' => some (Char.ofNat 0xa0)
  | 'L' => some (Char.ofNat 0x2028)
  | 'P' => some (Char.ofNat 0x2029)
  | _ => none

/-- The number of digits of a long escape. -/
def escapeWidth? : Char → Option Nat
  | 'x' => some 2
  | 'u' => some 4
  | 'U' => some 8
  | _ => none

/-- The character of a long escape with so many digits. -/
def longEscape? (width : Nat) (digits : List Char) : Option Char := do
  let values ← digits.mapM Text.hexValue?
  let n := values.foldl (fun n d => n * 16 + d) 0
  if digits.length ≠ width ∨ (0xd800 ≤ n ∧ n ≤ 0xdfff) ∨ 0x10ffff < n then none
  else some (Char.ofNat n)

/-- A character behind a backslash, and the number of characters it takes with it. -/
def escape? (c : Cursor) : Option (Char × Nat) := do
  let x ← c.peek 1
  match shortEscape? x with
  | some y => return (y, 2)
  | none =>
    let width ← escapeWidth? x
    let y ← longEscape? width ((c.rest.drop 2).take width)
    return (y, 2 + width)

/-- What comes next between quotes. -/
inductive QuotedPart where
  | char (x : Char) (length : Nat)
  | escapedBreak
  | gap
  | close

/-- What comes next between quotes; the end of the text is an error. -/
def quotedPart? (single : Bool) (c : Cursor) : Option QuotedPart := do
  let x ← c.head?
  if isGap (some x) then return .gap
  else if single then
    if x == '\'' then
      if c.peek 1 == some '\'' then return .char '\'' 2 else return .close
    else return .char x 1
  else if x == '"' then return .close
  else if x == '\\' then
    if (c.peek 1).any isBreak then return .escapedBreak
    else
      let (y, n) ← escape? c
      return .char y n
  else return .char x 1

/-- Reads a scalar in quotes up to and with the closing one. -/
def readQuoted (single : Bool) : Nat → List Char → Cursor → Option (List Char × Cursor)
  | 0, _, _ => none
  | fuel + 1, text, c =>
    if c.atMarker then none
    else
      match quotedPart? single c with
      | none => none
      | some (.char x n) => readQuoted single fuel (text ++ [x]) (c.advance n)
      | some .close => some (text, c.advance 1)
      | some .escapedBreak =>
        let after := (c.advance 1).advanceLine
        match readGap 0 (after.rest.length + 1) { first := .escaped } after with
        | none => none
        | some (gap, next) => readQuoted single fuel (text ++ gap.text) next
      | some .gap =>
        match readGap 0 (c.rest.length + 1) {} c with
        | none => none
        | some (gap, next) => readQuoted single fuel (text ++ gap.text) next

/-! ## Blocks of text -/

/-- What becomes of the line breaks at the end of a block. -/
inductive Chomping where
  | strip
  | clip
  | keep
deriving DecidableEq, Repr

def chomping? : Option Char → Option Chomping
  | some '+' => some .keep
  | some '-' => some .strip
  | _ => none

/-- The header of a block: what becomes of its end, and its indentation if that is given. -/
def blockHeader (c : Cursor) : Option (Chomping × Nat × Cursor) :=
  let digit? (c : Cursor) : Option (Nat × Cursor) :=
    match c.head? with
    | some x => if x.isDigit then some (x.toNat - '0'.toNat, c.advance 1) else some (10, c)
    | none => some (10, c)
  match chomping? c.head? with
  | some chomp => do
    let (n, after) ← digit? (c.advance 1)
    if n = 0 then none else some (chomp, if n = 10 then 0 else n, after)
  | none => do
    let (n, after) ← digit? c
    if n = 0 then none
    else if n = 10 then some (.clip, 0, after)
    else
      match chomping? after.head? with
      | some chomp => some (chomp, n, after.advance 1)
      | none => some (.clip, n, after)

/--
Passes over the indentation and the empty lines before a line of a block.  With an
indentation of zero, which is not known yet, all spaces count.  The answer holds the line
breaks and the largest column that was seen.
-/
def blockBreaks (indent : Nat) : Nat → List Char → Nat → Cursor → Option (List Char × Nat × Cursor)
  | 0, _, _, _ => none
  | fuel + 1, breaks, most, c =>
    let wanted (column : Nat) : Bool := indent == 0 || column < indent
    let found := (c.takeWhile (· == ' ')).length
    let after := c.advance (if indent == 0 then found else min found (indent - c.column))
    let most := max most after.column
    if wanted after.column && after.sees '\t' then none
    else if after.head?.any isBreak then
      blockBreaks indent fuel (breaks ++ after.breakText) most after.advanceLine
    else some (breaks, most, after)

/-- The state between two lines of a block. -/
structure BlockLines where
  text : List Char := []
  /-- The break that ended the last line. -/
  last : List Char := []
  /-- The breaks of empty lines behind it. -/
  empty : List Char := []
  /-- The last line started with a blank. -/
  blank : Bool := false

/-- Adds a line, and what stands before it. -/
def BlockLines.add (literal : Bool) (b : BlockLines) (line last : List Char) : BlockLines :=
  let blank := (line.head?).any isBlank
  let joint :=
    if !literal && !b.blank && !blank && b.last == ['\n'] then
      if b.empty.isEmpty then [' '] else []
    else b.last
  { text := b.text ++ joint ++ b.empty ++ line, last := last, empty := [], blank := blank }

def readBlockLines (literal : Bool) (indent : Nat) : Nat → BlockLines → Cursor →
    Option (BlockLines × Cursor)
  | 0, _, _ => none
  | fuel + 1, b, c =>
    if c.column == indent && !c.rest.isEmpty then
      let line := c.takeWhile fun x => !isBreak x
      let atEnd := c.skipLine
      let after := if atEnd.rest.isEmpty then atEnd else atEnd.advanceLine
      match blockBreaks indent (after.rest.length + 1) [] 0 after with
      | none => none
      | some (breaks, _, next) =>
        readBlockLines literal indent fuel
          { b.add literal line atEnd.breakText with empty := breaks } next
    else some (b, c)

/--
Reads a block behind its indicator.  `parent` is the indentation of the block around it,
or nothing at the top.
-/
def readBlock (literal : Bool) (parent : Option Nat) (c : Cursor) :
    Option (List Char × Cursor) := do
  let (chomp, given, c) ← blockHeader c
  let c := c.skipWhile isBlank
  let c := if c.sees '#' then c.skipLine else c
  if !isLineEnd c.head? then none
  else
    let c := if c.rest.isEmpty then c else c.advanceLine
    let known := if given = 0 then 0 else parent.getD 0 + given
    let (breaks, most, next) ← blockBreaks known (c.rest.length + 1) [] 0 c
    let least := match parent with
      | some n => n + 1
      | none => 1
    let indent := if known = 0 then max most least else known
    let (b, next) ← readBlockLines literal indent (next.rest.length + 1) { empty := breaks } next
    let tail := match chomp with
      | .strip => []
      | .clip => b.last
      | .keep => b.last ++ b.empty
    return (b.text ++ tail, next)

end MicroFlow.Yaml
