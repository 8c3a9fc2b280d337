import MicroFlow.Data.Decoder
import MicroFlow.Text.Case
import MicroFlow.Text.Decimal
import MicroFlow.Text.Hex

/-!
# Reading JSON

`read` takes the first value of a text and ignores what follows it.  Numbers keep
their digits.  A surrogate without its partner reads as U+FFFD.  Lists and records are
nested at most 10000 deep.

`decoder` fills records: keys are compared without regard to upper and lower case,
`null` leaves a field as it is and clears a list, and only plain integers are
numbers.
-/

namespace MicroFlow.Json

inductive Value where
  | null
  | bool (b : Bool)
  | number (digits : String)
  | text (s : String)
  | list (items : List Value)
  | record (fields : List (String × Value))
deriving Repr, Inhabited

/-- Blanks between the parts of a value. -/
def isSpace (c : Char) : Bool := c == ' ' || c == '\t' || c == '\n' || c == '\r'

/-- The rest behind blanks. -/
def skipSpace (cs : List Char) : List Char := cs.dropWhile isSpace

/-! ## Texts -/

/-- The value of four hexadecimal digits. -/
def hexUnit? : List Char → Option (Nat × List Char)
  | a :: b :: c :: d :: rest => do
    let a ← Text.hexValue? a
    let b ← Text.hexValue? b
    let c ← Text.hexValue? c
    let d ← Text.hexValue? d
    return (((a * 16 + b) * 16 + c) * 16 + d, rest)
  | _ => none

/-- The value of an escaped unit at the start of a text. -/
def escapedUnit? : List Char → Option (Nat × List Char)
  | '\\' :: 'u' :: rest => hexUnit? rest
  | _ => none

/-- The character of a unit and what may follow it: a surrogate needs its partner. -/
def unitChar (unit : Nat) (rest : List Char) : Char × List Char :=
  if 0xd800 ≤ unit ∧ unit < 0xdc00 then
    match escapedUnit? rest with
    | some (low, after) =>
      if 0xdc00 ≤ low ∧ low < 0xe000 then
        (Char.ofNat (0x10000 + (unit - 0xd800) * 0x400 + (low - 0xdc00)), after)
      else (Text.replacement, rest)
    | none => (Text.replacement, rest)
  else if 0xdc00 ≤ unit ∧ unit < 0xe000 then (Text.replacement, rest)
  else (Char.ofNat unit, rest)

/-- The character that stands for itself behind a backslash, or its short form. -/
def shortEscape? : Char → Option Char
  | '"' => some '"'
  | '\\' => some '\\'
  | '/' => some '/'
  | 'b' => some '\x08'
  | 'f' => some '\x0c'
  | 'n' => some '\n'
  | 'r' => some '\r'
  | 't' => some '\t'
  | _ => none

/-- Reads a text up to the closing quote; `fuel` bounds its length. -/
def readText : Nat → List Char → Option (List Char × List Char)
  | 0, _ => none
  | _ + 1, [] => none
  | _ + 1, '"' :: rest => some ([], rest)
  | fuel + 1, '\\' :: 'u' :: rest => do
    let (unit, rest) ← hexUnit? rest
    let (c, rest) := unitChar unit rest
    let (cs, rest) ← readText fuel rest
    return (c :: cs, rest)
  | fuel + 1, '\\' :: e :: rest => do
    let c ← shortEscape? e
    let (cs, rest) ← readText fuel rest
    return (c :: cs, rest)
  | fuel + 1, c :: rest =>
    if c == '\\' || c.toNat < 0x20 then none
    else do
      let (cs, rest) ← readText fuel rest
      return (c :: cs, rest)

/-! ## Numbers and words -/

/-- Reads at least one digit. -/
def readDigits (cs : List Char) : Option (List Char × List Char) :=
  let digits := cs.takeWhile Char.isDigit
  if digits.isEmpty then none else some (digits, cs.dropWhile Char.isDigit)

/-- Reads the digits before the point: no zero in front of others. -/
def readWhole : List Char → Option (List Char × List Char)
  | '0' :: rest => some (['0'], rest)
  | cs => readDigits cs

/-- Reads the digits behind the point, if there is one. -/
def readFraction : List Char → Option (List Char × List Char)
  | '.' :: rest => do
    let (digits, rest) ← readDigits rest
    return ('.' :: digits, rest)
  | cs => some ([], cs)

/-- Reads an exponent, if there is one. -/
def readExponent : List Char → Option (List Char × List Char)
  | c :: rest =>
    if c == 'e' || c == 'E' then
      match rest with
      | s :: digits =>
        if s == '+' || s == '-' then do
          let (digits, rest) ← readDigits digits
          return (c :: s :: digits, rest)
        else do
          let (digits, rest) ← readDigits (s :: digits)
          return (c :: digits, rest)
      | [] => none
    else some ([], c :: rest)
  | [] => some ([], [])

def readNumber (cs : List Char) : Option (String × List Char) := do
  let (sign, cs) := match cs with
    | '-' :: rest => (['-'], rest)
    | cs => ([], cs)
  let (whole, cs) ← readWhole cs
  let (fraction, cs) ← readFraction cs
  let (exponent, cs) ← readExponent cs
  return (String.ofList (sign ++ whole ++ fraction ++ exponent), cs)

/-- Passes over a word. -/
def readWord (word : String) (cs : List Char) : Option (List Char) :=
  if word.toList.isPrefixOf cs then some (cs.drop word.length) else none

/-! ## Values -/

/-- The depth to which lists and records can be nested. -/
def maxDepth : Nat := 10000

mutual

/-- Reads a value inside `depth` others; `fuel` bounds its size. -/
def readValue (depth : Nat) : Nat → List Char → Option (Value × List Char)
  | 0, _ => none
  | fuel + 1, cs =>
    match skipSpace cs with
    | '"' :: rest => do
      let (s, rest) ← readText (rest.length + 1) rest
      return (.text (String.ofList s), rest)
    | '[' :: rest =>
      if maxDepth ≤ depth then none
      else
        match skipSpace rest with
        | ']' :: rest => some (.list [], rest)
        | rest => do
          let (items, rest) ← readItems (depth + 1) fuel rest
          return (.list items, rest)
    | '\x7b' :: rest =>
      if maxDepth ≤ depth then none
      else
        match skipSpace rest with
        | '\x7d' :: rest => some (.record [], rest)
        | rest => do
          let (fields, rest) ← readFields (depth + 1) fuel rest
          return (.record fields, rest)
    | 't' :: rest => (readWord "rue" rest).map (Value.bool true, ·)
    | 'f' :: rest => (readWord "alse" rest).map (Value.bool false, ·)
    | 'n' :: rest => (readWord "ull" rest).map (Value.null, ·)
    | rest => do
      let (digits, rest) ← readNumber rest
      return (.number digits, rest)

/-- Reads the items of a list up to its end. -/
def readItems (depth : Nat) : Nat → List Char → Option (List Value × List Char)
  | 0, _ => none
  | fuel + 1, cs => do
    let (v, rest) ← readValue depth fuel cs
    match skipSpace rest with
    | ',' :: rest =>
      let (items, rest) ← readItems depth fuel rest
      return (v :: items, rest)
    | ']' :: rest => return ([v], rest)
    | _ => none

/-- Reads the fields of a record up to its end. -/
def readFields (depth : Nat) : Nat → List Char → Option (List (String × Value) × List Char)
  | 0, _ => none
  | fuel + 1, cs =>
    match skipSpace cs with
    | '"' :: rest => do
      let (key, rest) ← readText (rest.length + 1) rest
      match skipSpace rest with
      | ':' :: rest =>
        let (v, rest) ← readValue depth fuel rest
        match skipSpace rest with
        | ',' :: rest =>
          let (fields, rest) ← readFields depth fuel rest
          return ((String.ofList key, v) :: fields, rest)
        | '\x7d' :: rest => return ([(String.ofList key, v)], rest)
        | _ => none
      | _ => none
    | _ => none

end

/-- The first value of a text. -/
def read (cs : List Char) : Option Value := (readValue 0 (2 * cs.length + 2) cs).map Prod.fst

/-! ## Filling records -/

/-- The proper name of a key: one that is spelled alike, or alike but for the case. -/
def properName? (names : List String) (key : String) : Option String :=
  match names.find? (· == key) with
  | some name => some name
  | none => names.find? fun name => Text.equalFold name key

/-- How JSON fills records. -/
def decoder : Decoder Value where
  int v old :=
    match v with
    | .null => some old
    | .number digits => Text.toInt? digits
    | _ => none
  text v old :=
    match v with
    | .null => some old
    | .text s => some s
    | _ => none
  flag v old :=
    match v with
    | .null => some old
    | .bool b => some b
    | _ => none
  record names v :=
    match v with
    | .null => some .keep
    | .record fields =>
      some (.fields (fields.filterMap fun (key, v) => (properName? names key).map (·, v)))
    | _ => none
  list v :=
    match v with
    | .null => some .absent
    | .list items => some (.items items)
    | _ => none
  refills := true

end MicroFlow.Json
