import MicroFlow.Cache.Store
import MicroFlow.Command.Flag
import MicroFlow.Settings.Basic

/-!
# Doing what a command asks

A job reads and changes files, prints, and writes log lines; it can stop with a message.
What it has done before it stops stays done.
-/

namespace MicroFlow

open MicroFlow.Text (Bytes)

/-- What a command finds when it starts. -/
structure Session where
  environment : Environment
  /-- The standard input. -/
  input : Bytes := []
  /-- The time in log lines. -/
  stamp : String := ""
  /-- The time in cache files. -/
  now : Instant := {}
  /-- The time that a probe is said to take. -/
  elapsed : String := ""

/-- What a job has done so far. -/
structure Progress where
  files : Files
  /-- The standard output. -/
  output : Bytes := []
  /-- The standard error output. -/
  messages : String := ""

/-- Why a job stops. -/
inductive Stop where
  | failed (message : String)
  | fault (f : Fault)
deriving Repr

abbrev Job := ExceptT Stop (StateM Progress)

namespace Job

/-- Stops with a message. -/
def fail {α : Type} (message : String) : Job α := throw (.failed message)

/-- Goes on with a value, or stops at a fault. -/
def orFault {α : Type} : Except Fault α → Job α
  | .ok a => pure a
  | .error f => throw (.fault f)

/-- Goes on with a value, or stops with the message of an error. -/
def orFail {ε α : Type} (message : ε → String) : Except ε α → Job α
  | .ok a => pure a
  | .error e => fail (message e)

/-- Goes on with the value of a run; an error without a message is a fault. -/
def orRunError {α : Type} : Except RunError α → Job α
  | .ok a => pure a
  | .error e =>
    match e.message? with
    | some message => fail message
    | none => throw (.fault .brokenReference)

/-- Prints bytes. -/
def emit (bytes : Bytes) : Job Unit := modify fun p => { p with output := p.output ++ bytes }

def print (text : String) : Job Unit := emit (Text.toBytes text)

/-- The environment, with the files as they are now. -/
def environment (s : Session) : Job Environment :=
  do return { s.environment with files := (← get).files }

/-- Changes the files. -/
def setFiles (fs : Files) : Job Unit := modify fun p => { p with files := fs }

/-! ## Settings and log -/

/-- The settings of a command: from the file it names, or from the usual places. -/
def settings (s : Session) (a : Arguments) : Job Settings := do
  let env ← environment s
  let path := a.text "config"
  let loaded := if path == "" then Settings.load env else Settings.loadFrom env path
  let settings ← orFail (fun (e : SettingsError) => "loading config: " ++ e.message) loaded
  return if (a.get? "verbose").isSome then { settings with verbose := a.isOn "verbose" }
    else settings

def logger (settings : Settings) (a : Arguments) : Logger :=
  { threshold := LogLevel.rank (if settings.verbose then .debug else .warn), json :=
    a.isOn "log-json" }

/-- Writes log entries. -/
def note (s : Session) (l : Logger) (entries : List LogEntry) : Job Unit :=
  modify fun p => { p with messages := p.messages ++ l.lines s.stamp entries }

/-! ## Sources and cache -/

/-- The program text at a path; `-` is the standard input. -/
def source (s : Session) (path : String) : Job Bytes := do
  if path == "-" then return s.input
  else
    let fs := (← get).files
    let e ← orFail (fun (e : FileError) => "stat file: " ++ e.message) (fs.stat path)
    if e.isDirectory then fail ("path is a directory, expected a file: " ++ path)
    else orFail (fun (e : FileError) => "reading " ++ path ++ ": " ++ e.message) (fs.read path)

/-- The report cache of the settings; one that cannot be read starts empty. -/
def openCache (s : Session) (l : Logger) (settings : Settings) : Job (Option ReportCache) := do
  if !settings.cacheEnabled then return none
  else
    let empty : ReportCache := { capacity := settings.cacheSize }
    match ReportCache.fetch empty settings.cachePath (← get).files with
    | .ok c => return some c
    | .error e =>
      note s l [⟨.warn, "ignoring unreadable report cache",
        [.text "path", .text settings.cachePath, .text "error", .failure e.message]⟩]
      return some empty

/-- Writes the cache to its file. -/
def persist (s : Session) (settings : Settings) (c : ReportCache) : Job (Option StoreError) := do
  let (e, fs) := c.persisted s.now settings.cachePath (← get).files
  setFiles fs
  return e

/-- Keeps the cache, if there is one; that it cannot be kept is only logged. -/
def keepCache (s : Session) (l : Logger) (settings : Settings) : Option ReportCache → Job Unit
  | none => return
  | some c => do
    match ← persist s settings c with
    | none => return
    | some e =>
      note s l [⟨.warn, "could not persist report cache", [.text "error", .failure e.message]⟩]

/-- Makes an empty file. -/
def create (path : String) : Job Unit := do
  setFiles (← orFail (fun (e : FileError) => "creating " ++ path ++ ": " ++ e.message)
    ((← get).files.write path []))

/-- Writes to a file that was made. -/
def fill (path : String) (contents : Bytes) : Job Unit := do
  setFiles (((← get).files.write path contents).toOption.getD (← get).files)

end Job

end MicroFlow
