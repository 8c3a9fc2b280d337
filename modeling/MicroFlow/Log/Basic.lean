import MicroFlow.Json.Writer
import MicroFlow.Text.Case
import MicroFlow.Text.Quoted

/-!
# Log lines

A log entry has a level, a message and values.  Values come in pairs of a key and a
value; of an odd number of values the first stands alone.  A pair whose key is not a
text is left out.

A logger drops the entries below its threshold and writes the others as a line of
text or as a JSON record with sorted keys.
-/

namespace MicroFlow

/-- How much an entry matters. -/
inductive LogLevel where
  | debug
  | info
  | warn
  | error
deriving DecidableEq, Repr, Inhabited

namespace LogLevel

def all : List LogLevel := [debug, info, warn, error]

def name : LogLevel → String
  | debug => "DEBUG"
  | info => "INFO"
  | warn => "WARN"
  | error => "ERROR"

/-- The place in the order of levels. -/
def rank : LogLevel → Int
  | debug => 0
  | info => 1
  | warn => 2
  | error => 3

/-- The name of the level at a place in the order. -/
def nameAt (rank : Int) : String := ((all.find? (·.rank == rank)).map name).getD "UNKNOWN"

/-- The level with a name in upper or lower case. -/
def ofName? (s : String) : Option LogLevel := all.find? fun l => Text.equalFold s l.name

/-- The message for a name that no level has. -/
def unknownText (s : String) : String := "unknown log level " ++ Text.quote s

end LogLevel

/-- A value in a log entry. -/
inductive LogValue where
  | null
  | bool (b : Bool)
  | int (n : Int)
  | text (s : String)
  /-- An error, known by its message. -/
  | failure (message : String)
  | list (items : List LogValue)
deriving Repr, Inhabited

namespace LogValue

mutual

/-- A value as text. -/
def shown : LogValue → String
  | null => "<nil>"
  | bool b => if b then "true" else "false"
  | int n => toString n
  | text s => s
  | failure message => message
  | list items => "[" ++ " ".intercalate (shownItems items) ++ "]"

def shownItems : List LogValue → List String
  | [] => []
  | v :: rest => v.shown :: shownItems rest

end

mutual

/-- A value inside a list as data.  An error has no fields of its own there. -/
def innerData : LogValue → Data
  | null => .null
  | bool b => .bool b
  | int n => .int n
  | text s => .text s
  | failure _ => .record []
  | list items => .list (dataItems items)

def dataItems : List LogValue → List Data
  | [] => []
  | v :: rest => v.innerData :: dataItems rest

end

/-- A value as data; an error is its message. -/
def toData : LogValue → Data
  | failure message => .text message
  | v => v.innerData

end LogValue

/-- Something to be logged. -/
structure LogEntry where
  level : LogLevel
  message : String
  values : List LogValue := []
deriving Repr, Inhabited

namespace LogEntry

/-- The value that stands alone when the number of values is odd. -/
def lone? (values : List LogValue) : Option LogValue :=
  if values.length % 2 = 1 then values.head? else none

/-- The pairs of a key and a value. -/
def pairs : List LogValue → List (String × LogValue)
  | .text key :: v :: rest => (key, v) :: pairs rest
  | _ :: _ :: rest => pairs rest
  | _ => []

/-- The pairs behind the value that stands alone. -/
def fields (values : List LogValue) : List (String × LogValue) :=
  pairs (if values.length % 2 = 1 then values.drop 1 else values)

/-- The message with its values. -/
def text (e : LogEntry) : String :=
  let lone := match lone? e.values with
    | some v => " " ++ v.shown
    | none => ""
  e.message ++ lone ++ String.join ((fields e.values).map fun (k, v) => " " ++ k ++ "=" ++ v.shown)

/-- Pairs sorted by key; of several values for a key the last one counts. -/
def sortedFields (fields : List (String × LogValue)) : List (String × Data) :=
  let latest := fields.foldl (fun acc (k, v) => acc.filter (·.1 != k) ++ [(k, v.toData)]) []
  latest.mergeSort fun a b => a.1 ≤ b.1

/-- The entry as data, keys sorted. -/
def toData (time : String) (e : LogEntry) : Data :=
  let sorted := sortedFields (fields e.values)
  .record ((if sorted.isEmpty then [] else [("fields", .record sorted)]) ++
    [("level", .text e.level.name), ("message", .text e.message), ("timestamp", .text time)])

end LogEntry

/-- How entries are written. -/
structure Logger where
  /-- The place of the lowest level that is written. -/
  threshold : Int
  json : Bool := false
deriving DecidableEq, Repr, Inhabited

namespace Logger

/-- What is written for an entry at a time. -/
def line (l : Logger) (time : String) (e : LogEntry) : String :=
  if e.level.rank < l.threshold then ""
  else if l.json then Json.compact (e.toData time) ++ "\n"
  else "[" ++ time ++ "] " ++ e.level.name ++ ": " ++ e.text ++ "\n"

/-- What is written for several entries. -/
def lines (l : Logger) (time : String) (entries : List LogEntry) : String :=
  String.join (entries.map (l.line time))

end Logger

end MicroFlow
