import MicroFlow.Yaml.Number
import MicroFlow.Yaml.Timestamp

/-!
# What a plain scalar stands for

A scalar without quotes stands for nothing, a truth value, a number, a point in time
or, if it is none of these, for its own text.  The first character tells which of them
are tried.
-/

namespace MicroFlow.Yaml

/-- What a scalar stands for. -/
inductive Scalar where
  | null
  | bool (b : Bool)
  | int (n : Int)
  | real (r : Real)
  | timestamp
  | text
deriving DecidableEq, Repr

/-- The tag of what a scalar stands for. -/
def Scalar.tag : Scalar → String
  | .null => "!!null"
  | .bool _ => "!!bool"
  | .int _ => "!!int"
  | .real _ => "!!float"
  | .timestamp => "!!timestamp"
  | .text => "!!str"

/-- The words with a meaning of their own. -/
def word? (s : String) : Option Scalar :=
  if ["", "~", "null", "Null", "NULL"].contains s then some .null
  else if ["true", "True", "TRUE"].contains s then some (.bool true)
  else if ["false", "False", "FALSE"].contains s then some (.bool false)
  else if [".nan", ".NaN", ".NAN"].contains s then some (.real .notANumber)
  else if [".inf", ".Inf", ".INF", "+.inf", "+.Inf", "+.INF"].contains s then
    some (.real (.infinite false))
  else if ["-.inf", "-.Inf", "-.INF"].contains s then some (.real (.infinite true))
  else none

/-- What a plain scalar stands for; points in time are tried on demand. -/
def resolve (timestamps : Bool) (s : String) : Scalar :=
  match word? s with
  | some meaning => meaning
  | none =>
    let cs := s.toList
    match cs with
    | [] => .null
    | c :: _ =>
      if c.isDigit || c == '+' || c == '-' then
        if timestamps && isTimestamp cs then .timestamp
        else
          let digits := cs.filter (· != '_')
          match wholeNumber? digits with
          | some n => .int n
          | none =>
            match real? digits with
            | some r => .real r
            | none => .text
      else if c == '.' then
        match pointed? cs with
        | some r => .real r
        | none => .text
      else .text

/--
Truth values in words, which count only where a truth value is wanted.  Older readers take
them for truth values everywhere.
-/
def wordBool? (s : String) : Option Bool :=
  if ["y", "Y", "yes", "Yes", "YES", "on", "On", "ON"].contains s then some true
  else if ["n", "N", "no", "No", "NO", "off", "Off", "OFF"].contains s then some false
  else none

/-- Groups of one or two digits behind colons, the last with an optional fraction. -/
def sixties : Nat → List Char → Bool
  | 0, _ => false
  | fuel + 1, ':' :: cs =>
    let digits := cs.takeWhile Char.isDigit
    let rest := cs.dropWhile Char.isDigit
    let fits := match digits with
      | [_] => true
      | [a, _] => decide (a.toNat ≤ '5'.toNat)
      | _ => false
    fits &&
      match rest with
      | [] => true
      | '.' :: fraction => fraction.all fun c => c.isDigit || c == '_'
      | rest => sixties fuel rest
  | _ + 1, _ => false

/-- Numbers to the base of sixty, which older readers know. -/
def isBaseSixty (s : String) : Bool :=
  let (_, body) := splitSign s.toList
  let rest := body.dropWhile fun c => c.isDigit || c == '_'
  match body with
  | c :: _ => c.isDigit && sixties (rest.length + 1) rest
  | [] => false

/-- A text that reads as itself when it stands without quotes. -/
def readsAsText (s : String) : Bool :=
  decide (resolve true s = .text) && !isBaseSixty s && (wordBool? s).isNone

end MicroFlow.Yaml
