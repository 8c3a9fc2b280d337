import MicroFlow.Text.Decimal
import MicroFlow.Text.Hex

/-!
# Numbers in YAML

Whole numbers are written in decimal, binary (`0b`), octal (`0o`, or a zero in front)
or hexadecimal digits (`0x`).  Other numbers have a point or an exponent and stand for
the nearest binary number with 53 significant places; only the whole part of such a
number is ever asked for.
-/

namespace MicroFlow.Yaml

/-! ## Whole numbers -/

/-- The value of digits in a base; no digits have the value zero. -/
def natOfDigits (base : Nat) : List Char → Nat → Option Nat
  | [], acc => some acc
  | c :: rest, acc => do
    let d ← Text.hexValue? c
    if d < base then natOfDigits base rest (acc * base + d) else none

/-- The base that digits announce, and the digits that count. -/
def splitBase : List Char → Nat × List Char
  | '0' :: rest =>
    match rest with
    | c :: d :: digits =>
      if c == 'b' || c == 'B' then (2, d :: digits)
      else if c == 'o' || c == 'O' then (8, d :: digits)
      else if c == 'x' || c == 'X' then (16, d :: digits)
      else (8, rest)
    | _ => (8, rest)
  | cs => (10, cs)

/-- A sign and what follows it: whether it is a minus. -/
def splitSign : List Char → Bool × List Char
  | '-' :: rest => (true, rest)
  | '+' :: rest => (false, rest)
  | cs => (false, cs)

/-- A value with a sign, if it fits into 64 bits with it. -/
def signed (negative : Bool) (n : Nat) : Option Int :=
  let value : Int := if negative then -(n : Int) else n
  if value < Text.minInt || Text.maxInt < value then none else some value

/-- A whole number with its sign in a base. -/
def intInBase (base : Nat) (cs : List Char) : Option Int := do
  let (negative, digits) := splitSign cs
  if digits.isEmpty then none else signed negative (← natOfDigits base digits 0)

/--
A whole number, read from characters that hold no `_`.  Without a sign it may use all
64 bits.  Behind `0b` and `0o` a second sign is accepted.
-/
def wholeNumber? (cs : List Char) : Option Int :=
  let (negative, body) := splitSign cs
  let (base, digits) := splitBase body
  let value := if body.isEmpty then none else natOfDigits base digits 0
  match value.bind (signed negative) with
  | some n => some n
  | none =>
    match value with
    | some n => if body.length = cs.length ∧ n < 1 <<< 64 then some n else none
    | none =>
      match cs with
      | '0' :: 'b' :: rest => intInBase 2 rest
      | '0' :: 'o' :: rest => intInBase 8 rest
      | _ => none

/-! ## Numbers with a point or an exponent -/

/-- A number that need not be whole, by its whole part. -/
inductive Real where
  | notANumber
  | infinite (negative : Bool)
  | finite (negative : Bool) (whole : Nat)
deriving DecidableEq, Repr

/-- The quotient of two numbers, to the nearest whole number; a half goes to the even one. -/
def divNearest (n d : Nat) : Nat :=
  let q := n / d
  let r := n % d
  if 2 * r < d then q
  else if d < 2 * r then q + 1
  else if q % 2 = 0 then q else q + 1

/--
The whole part of the nearest number with 53 binary places to a quotient, or nothing
when that number is too large.
-/
def roundedWhole? (n d : Nat) : Option Nat :=
  let q := n / d
  let whole :=
    if q = 0 then
      -- below one only a number within 2^-54 of one comes out as one
      if ((1 <<< 54) - 1) * d ≤ n <<< 54 then 1 else 0
    else
      let places := q.log2
      if places ≤ 52 then divNearest (n <<< (52 - places)) d >>> (52 - places)
      else divNearest n (d <<< (places - 52)) <<< (places - 52)
  if 1 <<< 1024 ≤ whole then none else some whole

/-- The value of digits, a fraction and an exponent. -/
def realOf (negative : Bool) (whole fraction : List Char) (exponent : Int) : Option Real :=
  let digits := whole ++ fraction
  let mantissa := Text.ofDigits digits
  let e := exponent - fraction.length
  let size : Int := (digits.dropWhile (· == '0')).length + e
  if mantissa = 0 then some (.finite negative 0)
  else if 310 < size then none
  else if size < -30 then some (.finite negative 0)
  else
    let rounded :=
      if 0 ≤ e then roundedWhole? (mantissa * Nat.pow 10 e.toNat) 1
      else roundedWhole? mantissa (Nat.pow 10 (-e).toNat)
    rounded.map (Real.finite negative)

/-- Reads an exponent to the end of the text; its absence is zero. -/
def exponent? : List Char → Option Int
  | [] => some 0
  | c :: rest =>
    if c == 'e' || c == 'E' then
      let (negative, digits) := splitSign rest
      if digits.isEmpty || !digits.all Char.isDigit then none
      else some (if negative then -(Text.ofDigits digits : Int) else Text.ofDigits digits)
    else none

/-- A number with a sign, digits, a point and an exponent, the last two optional. -/
def real? (cs : List Char) : Option Real := do
  let (negative, body) := splitSign cs
  let whole := body.takeWhile Char.isDigit
  match body.dropWhile Char.isDigit with
  | '.' :: rest =>
    let fraction := rest.takeWhile Char.isDigit
    if whole.isEmpty && fraction.isEmpty then none
    else realOf negative whole fraction (← exponent? (rest.dropWhile Char.isDigit))
  | rest =>
    if whole.isEmpty then none
    else realOf negative whole [] (← exponent? rest)

/-- Every `_` stands between two digits. -/
def separatorsFit : Bool → List Char → Bool
  | _, [] => true
  | _, '_' :: [] => false
  | digitBefore, '_' :: c :: rest => digitBefore && c.isDigit && separatorsFit true rest
  | _, c :: rest => separatorsFit c.isDigit rest

/-- A number that starts with a point, where `_` may stand between digits. -/
def pointed? (cs : List Char) : Option Real :=
  if separatorsFit false cs then real? (cs.filter (· != '_')) else none

/-- The whole number that a number stands for where one is wanted. -/
def Real.toInt? : Real → Option Int
  | .notANumber => none
  | .infinite negative => if negative then some Text.minInt else none
  | .finite negative whole =>
    if negative then
      if whole ≤ 1 <<< 63 then some (-(whole : Int)) else some Text.minInt
    else if whole < 1 <<< 63 then some whole
    else if whole = 1 <<< 63 then some Text.minInt
    else none

end MicroFlow.Yaml
