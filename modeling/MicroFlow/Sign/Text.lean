import MicroFlow.Sign.Basic
import MicroFlow.Text.Blank

/-!
# Sets of signs as text

A set is written as the list of its members between braces.  Reading allows blanks
around the whole and around every member, and members in any order.
-/

namespace MicroFlow.SignSet

/-- How a set is written. -/
def text (s : SignSet) : String :=
  "\x7b" ++ ",".intercalate (s.signs.map Sign.text) ++ "\x7d"

/-- Cuts a list at every comma. -/
def splitCommas : List Char → List (List Char)
  | [] => [[]]
  | ',' :: rest => [] :: splitCommas rest
  | c :: rest =>
    match splitCommas rest with
    | [] => [[c]]
    | first :: more => (c :: first) :: more

/-- Reads the members between the braces. -/
def readMembers (body : List Char) : Option SignSet :=
  if body.isEmpty then some empty
  else do
    let members ← (splitCommas body).mapM fun name =>
      Sign.ofText? (String.ofList (Text.trimList name))
    return unions (members.map single)

/-- Reads a set. -/
def ofText? (s : String) : Option SignSet :=
  match Text.trimList s.toList with
  | '\x7b' :: rest =>
    if rest.getLast? = some '\x7d' then readMembers (Text.trimList rest.dropLast) else none
  | _ => none

/-- The message for a text that is no set. -/
def invalidText (s : String) : String := "sign: invalid set " ++ s

end MicroFlow.SignSet
