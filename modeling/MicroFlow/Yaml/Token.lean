import MicroFlow.Yaml.Folding

/-!
# YAML tokens

A text is cut into tokens.  Brackets, dashes, `?` and `:` stand for themselves; the
blocks that indentation makes are opened and closed by tokens of their own.

That something is a key is known only when the `:` behind it is met.  Until then its
place is kept, and the tokens that open the key are put in there.  A key has to end on
its line and within 1024 characters; where only a key can stand, its `:` must follow.

A mark may start a line.  Whether one does is judged by the first character of the text as
long as that is in view: in a text that starts with a second mark, the first character of
every line on which a token is looked for is passed over.

Reading stops at the first character that cannot be read.  The tokens before it remain,
since a document that has ended before does not depend on it.
-/

namespace MicroFlow.Yaml

/-- How a scalar was written. -/
inductive Quoting where
  | plain
  | quoted
deriving DecidableEq, Repr

inductive TokenKind where
  | version (major minor : Nat)
  | tagPrefix (handle uri : String)
  | documentStart
  | documentEnd
  | sequenceStart
  | mappingStart
  | blockEnd
  | flowSequenceStart
  | flowSequenceEnd
  | flowMappingStart
  | flowMappingEnd
  | dash
  | comma
  | key
  | value
  | reference (name : String)
  | anchor (name : String)
  | tag (handle suffix : String)
  | scalar (text : String) (quoting : Quoting)
  | streamEnd
deriving DecidableEq, Repr

/-- A token and the line on which it starts. -/
structure Token where
  kind : TokenKind
  line : Nat
deriving Repr

/-- A place where a key may have started. -/
structure PossibleKey where
  required : Bool
  /-- The number of tokens before it. -/
  place : Nat
  line : Nat
  column : Nat
  index : Nat
deriving Repr

/-- The tokens read so far, and what is known at this place. -/
structure Tokens where
  cursor : Cursor
  list : Array Token := #[]
  /-- The columns of the open blocks, the innermost first. -/
  indents : List Nat := []
  /-- The possible key of each bracket and, last, of the block. -/
  keys : List (Option PossibleKey) := [none]
  keyAllowed : Bool := true
  /-- The number of characters from the start with a mark in view. -/
  marked : Nat := 0

namespace Tokens

/-- The place lies between brackets. -/
def inFlow (t : Tokens) : Bool := 1 < t.keys.length

/-- Adds a token at the end. -/
def push (t : Tokens) (kind : TokenKind) (line : Nat) : Tokens :=
  { t with list := t.list.push ⟨kind, line⟩ }

/-- Puts a token in before others. -/
def insert (t : Tokens) (place : Nat) (kind : TokenKind) (line : Nat) : Tokens :=
  { t with list := t.list.extract 0 place ++ #[⟨kind, line⟩] ++ t.list.extract place t.list.size }

/-- Adds a token of some characters at this place. -/
def mark (t : Tokens) (kind : TokenKind) (length : Nat) : Tokens :=
  { t.push kind t.cursor.line with cursor := t.cursor.advance length }

/-! ## Indentation -/

/-- The blocks that stay open at a column, and the number of those that end. -/
def openBlocks (column : Option Nat) : List Nat → List Nat × Nat
  | [] => ([], 0)
  | i :: rest =>
    if column.all (· < i) then
      let (kept, n) := openBlocks column rest
      (kept, n + 1)
    else (i :: rest, 0)

/-- Ends the blocks that are indented deeper than a column; without one, all of them. -/
def unroll (t : Tokens) (column : Option Nat) : Tokens :=
  if t.inFlow then t
  else
    let (kept, n) := openBlocks column t.indents
    { t with
      indents := kept
      list := t.list ++ (List.replicate n (Token.mk .blockEnd t.cursor.line)).toArray }

/-- Opens a block at a column if it is deeper than the one around it. -/
def roll (t : Tokens) (column place : Nat) (kind : TokenKind) (line : Nat) : Tokens :=
  if t.inFlow || t.indents.head?.any (column ≤ ·) then t
  else { t.insert place kind line with indents := column :: t.indents }

/-! ## Possible keys -/

/-- Gives up the possible key of this level, unless a key has to be there. -/
def dropKey (t : Tokens) : Option Tokens :=
  match t.keys with
  | some k :: rest => if k.required then none else some { t with keys := none :: rest }
  | _ => some t

/-- Notes that a key may start here. -/
def noteKey (t : Tokens) : Option Tokens :=
  if t.keyAllowed then do
    let t ← t.dropKey
    let c := t.cursor
    let required := !t.inFlow && t.indents.head? == some c.column
    let k : PossibleKey := ⟨required, t.list.size, c.line, c.column, c.index⟩
    return { t with keys := some k :: t.keys.tail }
  else some t

/-- The possible key of this level if it can end here; one that is required has to. -/
def liveKey (t : Tokens) : Option (Option PossibleKey) :=
  match t.keys with
  | some k :: _ =>
    if k.line < t.cursor.line ∨ k.index + 1024 < t.cursor.index then
      if k.required then none else some none
    else some (some k)
  | _ => some none

/-! ## Between tokens -/

/-- Passes over comments that follow each other, up to the end of the last one. -/
def skipComments : Nat → Cursor → Cursor
  | 0, c => c
  | fuel + 1, c =>
    let atEnd := c.skipLine
    let gap := atEnd.takeWhile fun x => isBlank x || x == '\r' || x == '\n'
    let next := atEnd.rest.drop gap.length
    if next.head? == some '#' && gap.length < 512 then
      match readGap 0 (gap.length + 1) {} atEnd with
      | some (_, c) => skipComments fuel c
      | none => atEnd
    else atEnd

/-- Passes over blanks, comments and line breaks. -/
def skipToToken : Nat → Tokens → Tokens
  | 0, t => t
  | fuel + 1, t =>
    let c := if t.cursor.column == 0 && t.cursor.index < t.marked then t.cursor.advance 1
      else t.cursor
    let tabs := t.inFlow || !t.keyAllowed
    let c := c.skipWhile fun x => x == ' ' || (tabs && x == '\t')
    let c := if c.sees '#' then skipComments (c.rest.length + 1) c else c
    if c.head?.any isBreak then
      skipToToken fuel { t with cursor := c.advanceLine, keyAllowed := t.keyAllowed || !t.inFlow }
    else { t with cursor := c }

/-- Passes over a comment on the line of the last token; behind a dash it stays. -/
def skipLineComment (t : Tokens) : Tokens :=
  let stays := t.list.back?.any fun last =>
    match last.kind with
    | .dash => true
    -- only behind line breaks a key may follow a scalar
    | .scalar .. => t.keyAllowed
    | _ => false
  let c := t.cursor.skipWhile isBlank
  if !stays && c.sees '#' then { t with cursor := c.skipLine } else t

/-! ## Names, tags and directives -/

/-- Characters of names. -/
def isNameChar (c : Char) : Bool := c.isAlphanum || c == '_' || c == '-'

/-- Characters of the address in a tag, but for `%`. -/
def isAddressChar (c : Char) : Bool := isNameChar c || ";/?:@&=+$,.!~*'()[]".toList.contains c

/-- The octets that stand in an address as `%` and two digits, and what follows them. -/
def octets : Nat → List Char → List UInt8 × List Char
  | 0, cs => ([], cs)
  | fuel + 1, '%' :: a :: b :: rest =>
    match Text.hexValue? a, Text.hexValue? b with
    | some a, some b =>
      let (more, after) := octets fuel rest
      (UInt8.ofNat (a * 16 + b) :: more, after)
    | _, _ => ([], '%' :: a :: b :: rest)
  | _ + 1, cs => ([], cs)

/-- Reads the characters of an address. -/
def readAddress : Nat → Cursor → Option (List Char × Cursor)
  | 0, _ => none
  | fuel + 1, c =>
    match c.head? with
    | some '%' => do
      let (bytes, after) := octets c.rest.length c.rest
      let text ← Text.ofBytes? bytes
      if bytes.isEmpty then none
      else
        let (more, c) ← readAddress fuel (c.advance (c.rest.length - after.length))
        return (text.toList ++ more, c)
    | some x =>
      if isAddressChar x then do
        let (more, c) ← readAddress fuel (c.advance 1)
        return (x :: more, c)
      else some ([], c)
    | none => some ([], c)

/-- Reads the handle of a tag: `!`, a name, and another `!` if there is one. -/
def readHandle (c : Cursor) : Option (List Char × Cursor) :=
  if c.sees '!' then
    let name := (c.advance 1).takeWhile isNameChar
    let after := c.advance (name.length + 1)
    if after.sees '!' then some ('!' :: name ++ ['!'], after.advance 1)
    else some ('!' :: name, after)
  else none

/-- Reads a tag: the handle and the rest of it. -/
def readTag (c : Cursor) : Option (String × String × Cursor) := do
  let (handle, suffix, c) ←
    if c.peek 1 == some '<' then do
      let (address, c) ← readAddress (c.rest.length + 1) (c.advance 2)
      if address.isEmpty || !c.sees '>' then none
      else some ([], address, c.advance 1)
    else do
      let (handle, c) ← readHandle c
      let (address, c) ← readAddress (c.rest.length + 1) c
      if 1 < handle.length && handle.getLast? == some '!' then
        if address.isEmpty then none else some (handle, address, c)
      else
        let suffix := handle.tail ++ address
        if suffix.isEmpty then some ([], ['!'], c) else some (['!'], suffix, c)
  if isGap c.head? then some (String.ofList handle, String.ofList suffix, c) else none

/-- Reads the name behind `&` or `*`. -/
def readName (c : Cursor) : Option (String × Cursor) :=
  let name := (c.advance 1).takeWhile isNameChar
  let after := c.advance (name.length + 1)
  let ended := isGap after.head? || after.head?.any fun x => "?:,]\x7d%@\x60".toList.contains x
  if name.isEmpty || !ended then none else some (String.ofList name, after)

/-- Reads a number of at most two digits. -/
def readVersionNumber (c : Cursor) : Option (Nat × Cursor) :=
  let digits := c.takeWhile Char.isDigit
  if digits.isEmpty || 2 < digits.length then none
  else some (digits.foldl (fun n d => n * 10 + (d.toNat - '0'.toNat)) 0, c.advance digits.length)

def readDirective (c : Cursor) : Option (TokenKind × Cursor) := do
  let name := (c.advance 1).takeWhile isNameChar
  let after := c.advance (name.length + 1)
  if name.isEmpty || !isGap after.head? then none
  else
    let c := after.skipWhile isBlank
    let (kind, c) ←
      if name == "YAML".toList then do
        let (major, c) ← readVersionNumber c
        if !c.sees '.' then none
        else
          let (minor, c) ← readVersionNumber (c.advance 1)
          some (TokenKind.version major minor, c)
      else if name == "TAG".toList then do
        let (handle, c) ← readHandle c
        if handle != ['!'] && handle.getLast? != some '!' then none
        else if !c.head?.any isBlank then none
        else
          let (address, c) ← readAddress (c.rest.length + 1) (c.skipWhile isBlank)
          if address.isEmpty || !isGap c.head? then none
          else some (TokenKind.tagPrefix (String.ofList handle) (String.ofList address), c)
      else none
    let c := c.skipWhile isBlank
    let c := if c.sees '#' then c.skipLine else c
    if !isLineEnd c.head? then none
    else some (kind, if c.rest.isEmpty then c else c.advanceLine)

/-! ## One token -/

/-- Leaves all blocks; nothing can be a key behind it. -/
def leave (t : Tokens) : Option Tokens := do
  let t ← (t.unroll none).dropKey
  return { t with keyAllowed := false }

/-- The depth to which brackets can be nested. -/
def maxDepth : Nat := 10000

/-- An opening bracket, which may start a key. -/
def openBracket (t : Tokens) (kind : TokenKind) : Option Tokens := do
  let t ← t.noteKey
  if maxDepth < t.keys.length then none
  else return { t.mark kind 1 with keys := none :: t.keys, keyAllowed := true }

/-- A closing bracket. -/
def closeBracket (t : Tokens) (kind : TokenKind) : Option Tokens := do
  let t ← t.dropKey
  return { t.mark kind 1 with
    keys := if t.inFlow then t.keys.tail else t.keys, keyAllowed := false }

/-- A dash in front of an item. -/
def readDash (t : Tokens) : Option Tokens :=
  if !t.inFlow && !t.keyAllowed then none
  else do
    let t := t.roll t.cursor.column t.list.size .sequenceStart t.cursor.line
    let t ← t.dropKey
    return { t.mark .dash 1 with keyAllowed := true }

/-- A question mark in front of a key. -/
def readKeyMark (t : Tokens) : Option Tokens :=
  if !t.inFlow && !t.keyAllowed then none
  else do
    let t := t.roll t.cursor.column t.list.size .mappingStart t.cursor.line
    let t ← t.dropKey
    return { t.mark .key 1 with keyAllowed := !t.inFlow }

/-- A colon in front of a value; what was noted before it becomes a key. -/
def readColon (t : Tokens) : Option Tokens := do
  match ← t.liveKey with
  | some k =>
    let t := t.insert k.place .key k.line
    let t := t.roll k.column k.place .mappingStart k.line
    return { t.mark .value 1 with keys := none :: t.keys.tail, keyAllowed := false }
  | none =>
    if t.inFlow then return { t.mark .value 1 with keyAllowed := false }
    else if !t.keyAllowed then none
    else
      let t := t.roll t.cursor.column t.list.size .mappingStart t.cursor.line
      return { t.mark .value 1 with keyAllowed := true }

/-- Something that may be a key, read by a function from a cursor. -/
def readContent (t : Tokens) (read : Cursor → Option (TokenKind × Bool × Cursor)) :
    Option Tokens := do
  let t ← t.noteKey
  let (kind, keyAllowed, c) ← read t.cursor
  return { t.push kind t.cursor.line with cursor := c, keyAllowed := keyAllowed }

def readTextBlock (t : Tokens) (literal : Bool) : Option Tokens := do
  let t ← t.dropKey
  let (text, c) ← readBlock literal t.indents.head? (t.cursor.advance 1)
  return { t.push (.scalar (String.ofList text) .quoted) t.cursor.line with
    cursor := c, keyAllowed := true }

def quotedScalar (single : Bool) (c : Cursor) : Option (TokenKind × Bool × Cursor) := do
  let (text, after) ← readQuoted single (c.rest.length + 1) [] (c.advance 1)
  return (.scalar (String.ofList text) .quoted, false, after)

/-- A scalar without quotes; behind line breaks a key may follow it. -/
def plainScalar (flow : Bool) (indent : Nat) (c : Cursor) : Option (TokenKind × Bool × Cursor) := do
  let (text, broken, after) ← readPlain flow indent (c.rest.length + 1) [] {} c
  return (.scalar (String.ofList text) .plain, broken, after)

/-- Whether a scalar without quotes starts at a character. -/
def startsPlain (flow : Bool) (x : Char) (next : Option Char) : Bool :=
  if x == '-' then !next.any isBlank
  else if x == '?' || x == ':' then !flow && !isGap next
  else !isGap (some x) && !",[]\x7b\x7d#&*!|>'\"%@\x60".toList.contains x

/-- The column at which further lines of a scalar have to start. -/
def contentColumn (t : Tokens) : Nat :=
  match t.indents with
  | i :: _ => i + 1
  | [] => 0

/-- Reads a token that is not about documents. -/
def readToken (t : Tokens) (x : Char) : Option Tokens :=
  let next := t.cursor.peek 1
  match x with
  | '[' => t.openBracket .flowSequenceStart
  | '\x7b' => t.openBracket .flowMappingStart
  | ']' => t.closeBracket .flowSequenceEnd
  | '\x7d' => t.closeBracket .flowMappingEnd
  | ',' => do
    let t ← t.dropKey
    return { t.mark .comma 1 with keyAllowed := true }
  | '*' => t.readContent fun c => (readName c).map fun (name, c) => (.reference name, false, c)
  | '&' => t.readContent fun c => (readName c).map fun (name, c) => (.anchor name, false, c)
  | '!' =>
    t.readContent fun c => (readTag c).map fun (handle, suffix, c) => (.tag handle suffix, false, c)
  | '\'' => t.readContent (quotedScalar true)
  | '"' => t.readContent (quotedScalar false)
  | _ =>
    if x == '-' && isGap next then t.readDash
    else if x == '?' && (t.inFlow || isGap next) then t.readKeyMark
    else if x == ':' && (t.inFlow || isGap next) then t.readColon
    else if (x == '|' || x == '>') && !t.inFlow then t.readTextBlock (x == '|')
    else if startsPlain t.inFlow x next then t.readContent (plainScalar t.inFlow t.contentColumn)
    else none

/-- What reading one more token leads to. -/
inductive Step where
  | more (t : Tokens)
  | done (t : Tokens)
  | failed (t : Tokens)

/-- The step to the outcome of a reading. -/
def Step.ofOption (before : Tokens) : Option Tokens → Step
  | some t => .more t
  | none => .failed before

/-- Reads one more token. -/
def next (t : Tokens) : Step :=
  let t := skipToToken (t.cursor.rest.length + 1) t
  let t := t.unroll (some t.cursor.column)
  -- the first character goes out of view when fewer than four are left before the end of it
  let t := if t.marked < t.cursor.index + 4 then { t with marked := 0 } else t
  match t.cursor.head? with
  | none =>
    match t.leave with
    | some t => .done (t.push .streamEnd t.cursor.line)
    | none => .failed t
  | some x =>
    if t.cursor.column == 0 && x == '%' then
      Step.ofOption t do
        let t ← t.leave
        let (kind, c) ← readDirective t.cursor
        return { t.push kind t.cursor.line with cursor := c }
    else if t.cursor.atMarker then
      Step.ofOption t do
        let t ← t.leave
        return t.mark (if x == '-' then .documentStart else .documentEnd) 3
    else Step.ofOption t ((t.readToken x).map skipLineComment)

/-- Reads tokens to the end; the answer tells whether the end was reached. -/
def run : Nat → Tokens → Array Token × Bool
  | 0, t => (t.list, false)
  | fuel + 1, t =>
    match t.next with
    | .more t => run fuel t
    | .done t => (t.list, true)
    | .failed t => (t.list, false)

/-- The number of characters at the start of a text that fit into so many bytes. -/
def fitting : Nat → List Char → Nat
  | _, [] => 0
  | size, c :: rest => if c.utf8Size ≤ size then fitting (size - c.utf8Size) rest + 1 else 0

/--
The tokens of a text without the mark before it, and whether all of it could be read.  With
that mark 512 bytes are in view at the start.
-/
def ofText (cs : List Char) : Array Token × Bool :=
  let marked := if cs.head?.any isMark then fitting 509 cs else 0
  run (cs.length + 2) { cursor := { rest := cs }, marked := marked }

end Tokens

end MicroFlow.Yaml
