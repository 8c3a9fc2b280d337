import MicroFlow.Json.Reader
import MicroFlow.Json.Writer
import MicroFlow.Msgpack.Reader
import MicroFlow.Msgpack.Writer
import MicroFlow.Report.Encode
import MicroFlow.Report.Text
import MicroFlow.Yaml.Reader
import MicroFlow.Yaml.Writer

/-!
# Output formats

Reports are written as text, JSON, YAML or MessagePack, and read back from the last
three.  Other structured values have no text form.
-/

namespace MicroFlow

open MicroFlow.Text (Bytes)

inductive OutputFormat where
  | text
  | json
  | yaml
  | msgpack
  | unknown (name : String)
deriving DecidableEq, Repr, Inhabited

/-- Why a value cannot be written. -/
inductive EncodeError where
  /-- Only reports have a text form. -/
  | noTextForm
  | unknownFormat (name : String)
deriving DecidableEq, Repr

/-- Why a report cannot be read. -/
inductive DecodeError where
  /-- The format is not one to be read. -/
  | unreadable (format : String)
  /-- The bytes do not hold a report in the format. -/
  | malformed (format : String)
deriving DecidableEq, Repr

namespace OutputFormat

/-- The formats on offer. -/
def all : List OutputFormat := [text, json, yaml, msgpack]

def name : OutputFormat → String
  | text => "text"
  | json => "json"
  | yaml => "yaml"
  | msgpack => "msgpack"
  | unknown s => s

/-- The format of a name that is taken as it is. -/
def ofName (s : String) : OutputFormat := (all.find? (·.name == s)).getD (unknown s)

def read? (s : String) : Option OutputFormat := all.find? (·.name == s)

/-- The message for a name that no format has. -/
def unknownText (s : String) : String := "unknown output format " ++ Text.quote s

/-- Writes a structured value, which may depend on the dialect of the format. -/
def encodeData (f : OutputFormat) (value : Report.Dialect → Data) : Except EncodeError Bytes :=
  match f with
  | json => .ok (Text.toBytes (Json.indented (value .json) ++ "\n"))
  | yaml => .ok (Text.toBytes (Yaml.write 2 (value .yaml)))
  | msgpack => .ok (Msgpack.write (value .msgpack))
  | text => .error .noTextForm
  | unknown s => .error (.unknownFormat s)

/-- Writes a report. -/
def encode (f : OutputFormat) (r : Report) : Except EncodeError Bytes :=
  match f with
  | text => .ok (Text.toBytes r.text)
  | f => f.encodeData (Report.toData · r)

/-- Reads a report. -/
def decode (f : OutputFormat) (bytes : Bytes) : Except DecodeError Report :=
  let orMalformed : Option Report → Except DecodeError Report
    | some r => .ok r
    | none => .error (.malformed f.name)
  match f with
  | json => orMalformed do
    Report.ofValue Json.decoder .json (← Json.read (Text.ofBytes bytes).toList) {}
  | yaml => orMalformed do
    let document ← (← Yaml.Document.ofBytes bytes)
    Report.ofValue (Yaml.decoder document.numbered) .yaml document.root {}
  | msgpack => orMalformed do Report.ofValue Msgpack.decoder .msgpack (← Msgpack.read bytes) {}
  | f => .error (.unreadable f.name)

end OutputFormat

def EncodeError.message : EncodeError → String
  | noTextForm => "text output is only available for reports"
  | unknownFormat s => OutputFormat.unknownText s

/-- The message for a report that cannot be read; what is wrong inside one is not told. -/
def DecodeError.message? : DecodeError → Option String
  | unreadable format => some ("cannot decode " ++ format ++ " reports")
  | malformed _ => none

end MicroFlow
