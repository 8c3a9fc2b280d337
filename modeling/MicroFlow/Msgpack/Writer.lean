import MicroFlow.Data.Basic
import MicroFlow.Text.Utf8

/-!
# Writing MessagePack

Every value takes the shortest form that its format offers: small numbers and short
texts are a single head byte with its contents, longer ones have a head byte that
tells the width of the length or number behind it.
-/

namespace MicroFlow.Msgpack

open MicroFlow.Text (Bytes)

/-- The low `width` bytes of a number, the highest first. -/
def bigEndian (width n : Nat) : Bytes :=
  (List.range width).reverse.map fun i => UInt8.ofNat (n >>> (8 * i))

/-- A head byte and a number of so many bytes behind it. -/
def wide (head : UInt8) (width n : Nat) : Bytes := head :: bigEndian width n

/-- A number that is not negative. -/
def natural (n : Nat) : Bytes :=
  if n < 0x80 then [UInt8.ofNat n]
  else if n < 0x100 then wide 0xcc 1 n
  else if n < 0x10000 then wide 0xcd 2 n
  else if n < 0x100000000 then wide 0xce 4 n
  else wide 0xcf 8 n

/-- A number. -/
def integer (n : Int) : Bytes :=
  if 0 ≤ n then natural n.toNat
  else
    let low (bits : Nat) : Nat := (n % (1 <<< bits : Nat)).toNat
    if -0x20 ≤ n then [UInt8.ofNat (low 8)]
    else if -0x80 ≤ n then wide 0xd0 1 (low 8)
    else if -0x8000 ≤ n then wide 0xd1 2 (low 16)
    else if -0x80000000 ≤ n then wide 0xd2 4 (low 32)
    else wide 0xd3 8 (low 64)

def text (s : String) : Bytes :=
  let bytes := Text.toBytes s
  let n := bytes.length
  let head :=
    if n < 0x20 then [UInt8.ofNat (0xa0 + n)]
    else if n < 0x100 then wide 0xd9 1 n
    else if n < 0x10000 then wide 0xda 2 n
    else wide 0xdb 4 n
  head ++ bytes

def listHead (n : Nat) : Bytes :=
  if n < 0x10 then [UInt8.ofNat (0x90 + n)]
  else if n < 0x10000 then wide 0xdc 2 n
  else wide 0xdd 4 n

def recordHead (n : Nat) : Bytes :=
  if n < 0x10 then [UInt8.ofNat (0x80 + n)]
  else if n < 0x10000 then wide 0xde 2 n
  else wide 0xdf 4 n

/-- A point in time: seconds since 1970, fewer than 2^34, and nanoseconds. -/
def instant (seconds nanoseconds : Nat) : Bytes :=
  let data := (nanoseconds <<< 34) + seconds
  if data < 0x100000000 then 0xd6 :: 0xff :: bigEndian 4 data else 0xd7 :: 0xff :: bigEndian 8 data

mutual

/-- A value. -/
def write : Data → Bytes
  | .null => [0xc0]
  | .bool b => [if b then 0xc3 else 0xc2]
  | .int n => integer n
  | .text s => text s
  | .list items => listHead items.length ++ writeItems items
  | .record fields => recordHead fields.length ++ writeFields fields

def writeItems : List Data → Bytes
  | [] => []
  | d :: rest => write d ++ writeItems rest

def writeFields : List (String × Data) → Bytes
  | [] => []
  | (key, d) :: rest => text key ++ write d ++ writeFields rest

end

end MicroFlow.Msgpack
