import MicroFlow.Files.Tree
import MicroFlow.Msgpack.Reader
import MicroFlow.Msgpack.Writer
import MicroFlow.Report.Encode
import MicroFlow.Run.Cached

/-!
# Keeping a report cache in a file

The file holds a version and the entries, the one used longest ago first, so that a cache
read from it has the same order.  Every entry has the times of its making and of its last
use; they are written but never looked at.

A file of another version changes nothing, nor does one that cannot be read.
-/

namespace MicroFlow

open MicroFlow.Text (Bytes)

/-- A point in time, in seconds since 1970 and nanoseconds. -/
structure Instant where
  seconds : Nat := 0
  nanoseconds : Nat := 0
deriving Repr, Inhabited

/-- Why a cache could not be kept or fetched. -/
inductive StoreError where
  | makingDirectory (e : FileError)
  | makingFile (e : FileError)
  | openingFile (e : FileError)
  /-- The bytes do not hold a cache. -/
  | malformed
deriving DecidableEq, Repr

def StoreError.message : StoreError → String
  | makingDirectory e => "creating cache directory: " ++ e.message
  | makingFile e => "creating cache file: " ++ e.message
  | openingFile e => "opening cache file: " ++ e.message
  | malformed => "decoding report cache: malformed data"

namespace ReportCache

/-- The version of the file format. -/
def version : Int := 1

/-! ## Writing -/

/-- An entry of the file. -/
def entryBytes (time : Instant) (entry : String × Option Report) : Bytes :=
  let stamp := Msgpack.instant time.seconds time.nanoseconds
  let value := match entry.2 with
    | some r => Msgpack.write (r.toData .msgpack)
    | none => Msgpack.write .null
  Msgpack.recordHead 4 ++ Msgpack.text "key" ++ Msgpack.text entry.1 ++
    Msgpack.text "value" ++ value ++
    Msgpack.text "accessed_at" ++ stamp ++ Msgpack.text "created_at" ++ stamp

/-- The file for a cache. -/
def save (c : ReportCache) (time : Instant) : Bytes :=
  Msgpack.recordHead 2 ++ Msgpack.text "version" ++ Msgpack.integer version ++
    Msgpack.text "entries" ++
    Msgpack.listHead c.size ++ c.oldestFirst.flatMap (entryBytes time)

/-! ## Reading -/

/-- The contents of a file. -/
structure Saved where
  version : Int := 0
  entries : List (String × Option Report) := []
deriving DecidableEq, Repr

/-- A report, which can be absent. -/
def reportOf (v : Msgpack.Value) (old : Option Report) : Option (Option Report) :=
  match v with
  | .nil => some none
  | v => (Report.ofValue Msgpack.decoder .msgpack v (old.getD {})).map some

/-- An entry of the file. -/
def entryOf : Msgpack.Value → String × Option Report → Option (String × Option Report) :=
  Msgpack.decoder.readRecord ["key", "value", "accessed_at", "created_at"] ("", none)
    fun field v e =>
    match field with
    | "key" => do return (← Msgpack.decoder.text v e.1, e.2)
    | "value" => do return (e.1, ← reportOf v e.2)
    | _ => if Msgpack.isInstant v then some e else none

/-- The contents of a file. -/
def savedOf : Msgpack.Value → Saved → Option Saved :=
  Msgpack.decoder.readRecord ["version", "entries"] {} fun field v s =>
    match field with
    | "version" => do return { s with version := ← Msgpack.decoder.int v s.version }
    | _ => do
      let entries ← Msgpack.decoder.readList entryOf ("", none) v (some s.entries)
      return { s with entries := entries.getD [] }

/-- The contents of a file, if the bytes hold any. -/
def decode? (bytes : Bytes) : Option Saved := do savedOf (← Msgpack.read bytes) {}

/-- Replaces the entries by those of a file of this version. -/
def load (c : ReportCache) (bytes : Bytes) : Except StoreError ReportCache :=
  match decode? bytes with
  | none => .error .malformed
  | some s => .ok (if s.version = version then c.restore s.entries else c)

/-! ## Files -/

/-- Writes the cache to a file and makes its directory; without a path nothing is done. -/
def persist (c : ReportCache) (time : Instant) (path : String) (fs : Files) :
    Except StoreError Files :=
  if path == "" then .ok fs
  else
    match fs.makeDirectories (Path.parent path) with
    | .error e => .error (.makingDirectory e)
    | .ok fs =>
      match fs.write path (c.save time) with
      | .error e => .error (.makingFile e)
      | .ok fs => .ok fs

/-- Whether a cache file could be written, and the files behind the attempt. -/
def persisted (c : ReportCache) (time : Instant) (path : String) (fs : Files) :
    Option StoreError × Files :=
  match c.persist time path fs with
  | .ok after => (none, after)
  | .error e =>
    match e with
    | .makingFile _ => (some e, (fs.makeDirectories (Path.parent path)).toOption.getD fs)
    | _ => (some e, fs)

/-- Reads the cache from a file; a missing one changes nothing. -/
def fetch (c : ReportCache) (path : String) (fs : Files) : Except StoreError ReportCache :=
  if path == "" then .ok c
  else
    match fs.read path with
    | .ok bytes => c.load bytes
    | .error e =>
      if e.fault == .missing then .ok c
      else if e.fault == .isDirectory then .error .malformed
      else .error (.openingFile e)

end ReportCache

end MicroFlow
