import MicroFlow.Files.Path

/-!
# Patterns for names

A pattern is matched against a whole name.  `*` stands for any bytes but a slash, `?` for
one character but a slash, `[a-z]` for a character of a range, `[^a-z]` for any other,
and a backslash takes the meaning from what follows.  A pattern that breaks these rules
matches nothing.

Stars divide a pattern into runs.  Each run takes the first place where it matches, and
none is tried at a later place when a run behind it fails.  Only the last run is: it goes
on until it ends with the name.
-/

namespace MicroFlow

open MicroFlow.Text (Bytes)

/-- A part of a pattern between stars. -/
inductive GlobPart where
  | byte (b : UInt8)
  | any
  | oneOf (negated : Bool) (ranges : List (Char × Char))
deriving Repr

/-- The parts between two stars. -/
abbrev GlobRun := List GlobPart

namespace Glob

def backslash : UInt8 := '\\'.toUInt8
def opening : UInt8 := '['.toUInt8
def closing : UInt8 := ']'.toUInt8
def hyphen : UInt8 := '-'.toUInt8
def caret : UInt8 := '^'.toUInt8
def asterisk : UInt8 := '*'.toUInt8
def question : UInt8 := '?'.toUInt8

/-! ## Reading -/

/-- A character between brackets; something has to follow it. -/
def rangeEnd? : Bytes → Option (Char × Bytes)
  | [] => none
  | b :: rest =>
    if b == hyphen || b == closing then none
    else
      let bytes := if b == backslash then rest else b :: rest
      match bytes with
      | [] => none
      | a :: more =>
        match Text.decodeHead a more with
        | (some c, n) =>
          match bytes.drop n with
          | [] => none
          | after => some (c, after)
        | (none, _) => none

/-- The ranges up to the closing bracket; `fuel` bounds their number. -/
def ranges? : Nat → List (Char × Char) → Bytes → Option (List (Char × Char) × Bytes)
  | 0, _, _ => none
  | fuel + 1, found, bytes =>
    if bytes.head? == some closing && !found.isEmpty then some (found, bytes.drop 1)
    else do
      let (low, rest) ← rangeEnd? bytes
      if rest.head? == some hyphen then
        let (high, rest) ← rangeEnd? (rest.drop 1)
        ranges? fuel (found ++ [(low, high)]) rest
      else ranges? fuel (found ++ [(low, low)]) rest

/-- Puts a part in front of the first run. -/
def addPart (part : GlobPart) : List GlobRun → List GlobRun
  | [] => [[part]]
  | run :: runs => (part :: run) :: runs

/-- The runs of a pattern; `fuel` bounds the number of parts and stars. -/
def runsFrom : Nat → Bytes → Option (List GlobRun)
  | _, [] => some [[]]
  | 0, _ => none
  | fuel + 1, b :: rest =>
    if b == asterisk then (runsFrom fuel rest).map ([] :: ·)
    else if b == question then (runsFrom fuel rest).map (addPart .any)
    else if b == backslash then
      match rest with
      | [] => none
      | c :: rest => (runsFrom fuel rest).map (addPart (.byte c))
    else if b == opening then do
      let negated := rest.head? == some caret
      let (found, rest) ← ranges? (rest.length + 1) [] (if negated then rest.drop 1 else rest)
      return addPart (.oneOf negated found) (← runsFrom fuel rest)
    else (runsFrom fuel rest).map (addPart (.byte b))

/-- The runs of a pattern, if it is well-formed. -/
def runs? (pattern : Bytes) : Option (List GlobRun) := runsFrom pattern.length pattern

/-! ## Matching -/

/-- What is left of a name behind a part at its start. -/
def matchPart : GlobPart → Bytes → Option Bytes
  | _, [] => none
  | .byte c, b :: name => if c == b then some name else none
  | .any, b :: name =>
    if b == Path.slash then none else some ((b :: name).drop (Text.decodeHead b name).2)
  | .oneOf negated ranges, b :: name =>
    let (c, n) := Text.decodeHead b name
    let c := c.getD Text.replacement
    if (ranges.any fun (low, high) => low ≤ c && c ≤ high) != negated then some ((b :: name).drop n)
    else none

/-- What is left of a name behind a run at its start. -/
def matchRun (run : GlobRun) (name : Bytes) : Option Bytes :=
  run.foldlM (fun rest p => matchPart p rest) name

/-- What is left behind a run at the start of a name; the last run leaves nothing. -/
def matchHere (run : GlobRun) (last : Bool) (name : Bytes) : Option Bytes :=
  (matchRun run name).filter fun rest => !last || rest.isEmpty

/-- What is left behind the first place of a run behind a star. -/
def findRun (run : GlobRun) (last : Bool) : Bytes → Option Bytes
  | [] => matchHere run last []
  | b :: name =>
    (matchHere run last (b :: name)).orElse fun _ =>
      if b == Path.slash then none else findRun run last name

/-- Whether runs match, each behind a star. -/
def matchStarred : List GlobRun → Bytes → Bool
  | [], name => name.isEmpty
  | run :: runs, name => (findRun run runs.isEmpty name).any (matchStarred runs)

/-- Whether runs with stars between them match a name. -/
def matchRuns : List GlobRun → Bytes → Bool
  | [], name => name.isEmpty
  | run :: runs, name => (matchRun run name).any (matchStarred runs)

/-- Whether a pattern matches a name. -/
def isMatch (pattern name : Bytes) : Bool := (runs? pattern).any (matchRuns · name)

end Glob

end MicroFlow
