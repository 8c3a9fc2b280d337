import MicroFlow.Data.Decoder
import MicroFlow.Text.Decimal
import MicroFlow.Text.Utf8

/-!
# Reading MessagePack

`read` takes the first value of a byte string and ignores what follows it.

`decoder` fills records: keys are compared exactly, unknown ones are passed over, an
absent value clears a field, numbers of every width are accepted, and bytes count as
text.  A list in the place of a record holds the fields in their order, all of them
or none.
-/

namespace MicroFlow.Msgpack

open MicroFlow.Text (Bytes)

/-- A MessagePack value. -/
inductive Value where
  | nil
  | bool (b : Bool)
  | int (n : Int)
  /-- A floating point number, which is never looked at. -/
  | float
  | bytes (data : Bytes)
  | list (items : List Value)
  | map (entries : List (Value × Value))
  /-- A value of an application's own kind. -/
  | extension (kind : Nat) (size : Nat)
deriving Repr, Inhabited

/-- The first `n` bytes, if there are so many, and the rest. -/
def takeBytes (n : Nat) (bytes : Bytes) : Option (Bytes × Bytes) :=
  if (bytes.take n).length = n then some (bytes.take n, bytes.drop n) else none

/-- A number of so many bytes, the highest first. -/
def takeNat (width : Nat) (bytes : Bytes) : Option (Nat × Bytes) := do
  let (front, rest) ← takeBytes width bytes
  return (front.foldl (fun n b => n * 256 + b.toNat) 0, rest)

/-- A number of so many bytes with a sign. -/
def takeInt (width : Nat) (bytes : Bytes) : Option (Int × Bytes) := do
  let (n, rest) ← takeNat width bytes
  return (Int.bmod n (1 <<< (8 * width)), rest)

/-- What a head byte announces. -/
inductive Head where
  | value (v : Value)
  | natural (width : Nat)
  | integer (width : Nat)
  | float (width : Nat)
  | bytes (length : Nat)
  | wideBytes (width : Nat)
  | list (length : Nat)
  | wideList (width : Nat)
  | map (length : Nat)
  | wideMap (width : Nat)
  | extension (size : Nat)
  | wideExtension (width : Nat)

/-- What a head byte announces; one byte announces nothing. -/
def headOf (b : UInt8) : Option Head :=
  let n := b.toNat
  if n < 0x80 then some (.value (.int n))
  else if n < 0x90 then some (.map (n - 0x80))
  else if n < 0xa0 then some (.list (n - 0x90))
  else if n < 0xc0 then some (.bytes (n - 0xa0))
  else if 0xe0 ≤ n then some (.value (.int ((n : Int) - 0x100)))
  else
    match n with
    | 0xc0 => some (.value .nil)
    | 0xc2 => some (.value (.bool false))
    | 0xc3 => some (.value (.bool true))
    | 0xc4 | 0xd9 => some (.wideBytes 1)
    | 0xc5 | 0xda => some (.wideBytes 2)
    | 0xc6 | 0xdb => some (.wideBytes 4)
    | 0xc7 => some (.wideExtension 1)
    | 0xc8 => some (.wideExtension 2)
    | 0xc9 => some (.wideExtension 4)
    | 0xca => some (.float 4)
    | 0xcb => some (.float 8)
    | 0xcc => some (.natural 1)
    | 0xcd => some (.natural 2)
    | 0xce => some (.natural 4)
    | 0xcf => some (.natural 8)
    | 0xd0 => some (.integer 1)
    | 0xd1 => some (.integer 2)
    | 0xd2 => some (.integer 4)
    | 0xd3 => some (.integer 8)
    | 0xd4 => some (.extension 1)
    | 0xd5 => some (.extension 2)
    | 0xd6 => some (.extension 4)
    | 0xd7 => some (.extension 8)
    | 0xd8 => some (.extension 16)
    | 0xdc => some (.wideList 2)
    | 0xdd => some (.wideList 4)
    | 0xde => some (.wideMap 2)
    | 0xdf => some (.wideMap 4)
    | _ => none

/-- Reads the kind and the contents of an extension. -/
def takeExtension (size : Nat) (bytes : Bytes) : Option (Value × Bytes) := do
  let (kind, rest) ← takeNat 1 bytes
  let (_, rest) ← takeBytes size rest
  return (.extension kind size, rest)

/-- Reads text or bytes. -/
def takeData (size : Nat) (bytes : Bytes) : Option (Value × Bytes) := do
  let (data, rest) ← takeBytes size bytes
  return (.bytes data, rest)

mutual

/-- Reads a value; `fuel` bounds its size. -/
def readValue : Nat → Bytes → Option (Value × Bytes)
  | 0, _ => none
  | _ + 1, [] => none
  | fuel + 1, b :: rest => do
    match ← headOf b with
    | .value v => return (v, rest)
    | .natural width =>
      let (n, rest) ← takeNat width rest
      return (.int n, rest)
    | .integer width =>
      let (n, rest) ← takeInt width rest
      return (.int n, rest)
    | .float width =>
      let (_, rest) ← takeBytes width rest
      return (.float, rest)
    | .bytes size => takeData size rest
    | .wideBytes width =>
      let (size, rest) ← takeNat width rest
      takeData size rest
    | .list size =>
      let (items, rest) ← readItems fuel size rest
      return (.list items, rest)
    | .wideList width =>
      let (size, rest) ← takeNat width rest
      let (items, rest) ← readItems fuel size rest
      return (.list items, rest)
    | .map size =>
      let (entries, rest) ← readEntries fuel size rest
      return (.map entries, rest)
    | .wideMap width =>
      let (size, rest) ← takeNat width rest
      let (entries, rest) ← readEntries fuel size rest
      return (.map entries, rest)
    | .extension size => takeExtension size rest
    | .wideExtension width =>
      let (size, rest) ← takeNat width rest
      takeExtension size rest

/-- Reads so many values. -/
def readItems : Nat → Nat → Bytes → Option (List Value × Bytes)
  | _, 0, bytes => some ([], bytes)
  | 0, _ + 1, _ => none
  | fuel + 1, n + 1, bytes => do
    let (v, rest) ← readValue fuel bytes
    let (items, rest) ← readItems fuel n rest
    return (v :: items, rest)

/-- Reads so many keys and values. -/
def readEntries : Nat → Nat → Bytes → Option (List (Value × Value) × Bytes)
  | _, 0, bytes => some ([], bytes)
  | 0, _ + 1, _ => none
  | fuel + 1, n + 1, bytes => do
    let (k, rest) ← readValue fuel bytes
    let (v, rest) ← readValue fuel rest
    let (entries, rest) ← readEntries fuel n rest
    return ((k, v) :: entries, rest)

end

/-- The first value of a byte string. -/
def read (bytes : Bytes) : Option Value := (readValue (2 * bytes.length + 2) bytes).map Prod.fst

/-- A value as text: bytes, or nothing. -/
def toText? : Value → Option String
  | .nil => some ""
  | .bytes data => some (Text.ofBytes data)
  | _ => none

/-- A value as a point in time, which is accepted but not kept. -/
def isInstant : Value → Bool
  | .nil => true
  | .extension kind size => kind == 0xff && (size == 4 || size == 8 || size == 12)
  | _ => false

/-- The entries of a map by name; every key has to be a text. -/
def namedEntries : List (Value × Value) → Option (List (String × Value))
  | [] => some []
  | (k, v) :: rest => do
    let name ← toText? k
    return (name, v) :: (← namedEntries rest)

/-- How MessagePack fills records. -/
def decoder : Decoder Value where
  int v _ :=
    match v with
    | .nil => some 0
    | .int n => some (Text.wrap n)
    | _ => none
  text v _ := toText? v
  flag v _ :=
    match v with
    | .nil => some false
    | .bool b => some b
    | _ => none
  record names v :=
    match v with
    | .nil => some .clear
    | .map entries => do
      let named ← namedEntries entries
      return .fields (named.filter fun e => names.contains e.1)
    | .list [] => some .clear
    | .list items => if items.length = names.length then some (.fields (names.zip items)) else none
    | _ => none
  list v :=
    match v with
    | .nil => some .absent
    | .list items => some (.items items)
    | _ => none
  refills := true

end MicroFlow.Msgpack
