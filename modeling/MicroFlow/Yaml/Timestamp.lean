import MicroFlow.Text.Decimal

/-!
# Points in time in YAML

A date is a year of four digits, a month and a day; a time of day may follow behind
`T` or `t` with a zone, or behind spaces without one.  Only whether a text is a point
in time is ever asked for.
-/

namespace MicroFlow.Yaml

/-- One or two digits and what follows them. -/
def shortNumber? : List Char → Option (Nat × List Char)
  | a :: rest =>
    if a.isDigit then
      match rest with
      | b :: after =>
        if b.isDigit then some (Text.ofDigits [a, b], after) else some (Text.ofDigits [a], rest)
      | [] => some (Text.ofDigits [a], [])
    else none
  | [] => none

/-- What follows a character. -/
def after? (c : Char) : List Char → Option (List Char)
  | d :: rest => if c == d then some rest else none
  | [] => none

/-- The number of days in a month. -/
def daysIn (year month : Nat) : Nat :=
  if month = 2 then
    if year % 4 = 0 ∧ (year % 100 ≠ 0 ∨ year % 400 = 0) then 29 else 28
  else if month = 4 ∨ month = 6 ∨ month = 9 ∨ month = 11 then 30
  else 31

/-- Reads a date. -/
def date? (cs : List Char) : Option (List Char) := do
  let year := cs.takeWhile Char.isDigit
  if year.length ≠ 4 then none
  else
    let rest ← after? '-' (cs.dropWhile Char.isDigit)
    let (month, rest) ← shortNumber? rest
    let rest ← after? '-' rest
    let (day, rest) ← shortNumber? rest
    if 1 ≤ month ∧ month ≤ 12 ∧ 1 ≤ day ∧ day ≤ daysIn (Text.ofDigits year) month then some rest
    else none

/-- Passes over a fraction of a second, if there is one. -/
def skipFraction : List Char → List Char
  | p :: d :: rest =>
    if (p == '.' || p == ',') && d.isDigit then rest.dropWhile Char.isDigit else p :: d :: rest
  | cs => cs

/-- Reads a time of day. -/
def timeOfDay? (cs : List Char) : Option (List Char) := do
  let (hour, rest) ← shortNumber? cs
  let rest ← after? ':' rest
  let (minute, rest) ← shortNumber? rest
  let rest ← after? ':' rest
  let (second, rest) ← shortNumber? rest
  if hour < 24 ∧ minute < 60 ∧ second < 60 then some (skipFraction rest) else none

/-- A zone is `Z`, or a sign with two digits, a colon and two digits. -/
def isZone : List Char → Bool
  | ['Z'] => true
  | [s, a, b, ':', c, d] =>
    (s == '+' || s == '-') && [a, b, c, d].all Char.isDigit &&
      Text.ofDigits [a, b] ≤ 24 && Text.ofDigits [c, d] ≤ 60
  | _ => false

/-- Whether a text is a point in time. -/
def isTimestamp (cs : List Char) : Bool :=
  match date? cs with
  | none => false
  | some [] => true
  | some (c :: rest) =>
    if c == 'T' || c == 't' then (timeOfDay? rest).any isZone
    else if c == ' ' then (timeOfDay? (rest.dropWhile (· == ' '))).any List.isEmpty
    else false

end MicroFlow.Yaml
