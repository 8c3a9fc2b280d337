import MicroFlow.Files.Tree
import MicroFlow.Report.Format
import MicroFlow.Run.Choice

/-!
# Settings

Settings come from three sources: a file in the home directory, variables of the
environment, and a file in the project, where a later one wins.  Or they come from one
file that is named, and the variables win.  What no source tells has a default.

Settings are checked once all sources have been read.
-/

namespace MicroFlow

open MicroFlow.Text (Bytes)

/-- The files, the home directory and the variables that a program finds. -/
structure Environment where
  files : Files
  home : Option String := none
  vars : List (String × String) := []
deriving Inhabited

/-- A variable of the environment; an empty one counts as missing. -/
def Environment.get? (env : Environment) (name : String) : Option String :=
  (env.vars.lookup name).filter (· != "")

structure Settings where
  analysis : String := "sign"
  solver : String := "roundrobin"
  format : String := "text"
  cacheEnabled : Bool := false
  cachePath : String := ""
  cacheSize : Int := 128
  verbose : Bool := false
deriving DecidableEq, Repr, Inhabited

/-- What is wrong with settings. -/
inductive SettingsFault where
  | analysis (name : String)
  | solver (name : String)
  | format (name : String)
  /-- A cache is wanted but has no path. -/
  | noCachePath
  /-- A cache is wanted but may hold nothing. -/
  | noCacheSize
deriving DecidableEq, Repr

def SettingsFault.message : SettingsFault → String
  | analysis s => "invalid analysis: " ++ AnalysisKind.unknownText s
  | solver s => "invalid solver: " ++ SolverKind.unknownText s
  | format s => "invalid format: " ++ OutputFormat.unknownText s
  | noCachePath => "cache_path is required when cache_enabled is true"
  | noCacheSize => "cache_size must be positive"

/-- Why settings could not be read. -/
inductive SettingsError where
  | unreadable (path : String) (e : FileError)
  | unparsable (path : String) (e : Yaml.ReadError)
  | invalid (fault : SettingsFault)
deriving DecidableEq, Repr

/-- The message for settings that could not be read. -/
def SettingsError.message : SettingsError → String
  | unreadable path e => "failed to read config file " ++ path ++ ": " ++ e.message
  | unparsable path e =>
    "failed to parse config file " ++ path ++ ": " ++ (e.message?).getD "yaml: malformed document"
  | invalid fault => fault.message

/-- Why settings could not be written. -/
inductive SaveError where
  | directory (path : String) (e : FileError)
  | file (path : String) (e : FileError)
deriving DecidableEq, Repr

def SaveError.message : SaveError → String
  | directory path e => "failed to create directory " ++ path ++ ": " ++ e.message
  | file path e => "failed to write config file " ++ path ++ ": " ++ e.message

namespace Settings

/-! ## Places -/

/-- A path in the program's directory below the home directory, if there is one. -/
def homePath (env : Environment) (path : String) : String :=
  match env.home with
  | some home => Text.ofBytes (Path.append home (".mca/" ++ path))
  | none => ".mca/" ++ path

/-- The settings file in the home directory. -/
def globalPath (env : Environment) : String := homePath env "config.yaml"

/-- The settings file of the project. -/
def projectPath : String := ".mca/config.yaml"

/-- The settings file with the last word, if there is any. -/
def effectivePath (env : Environment) : String :=
  ([projectPath, globalPath env].find? fun (path : String) =>
    match env.files.stat path with
    | .ok e => !e.isDirectory
    | .error _ => false).getD ""

/-- The settings when no source tells anything. -/
def default (env : Environment) : Settings := { cachePath := homePath env "cache/reports.msgpack" }

/-! ## Reading -/

/-- The names of the settings in a file. -/
def names : List String :=
  ["analysis", "solver", "format", "cache_enabled", "cache_path", "cache_size", "verbose"]

/-- Sets one of the settings from a file. -/
def setNode (s : Settings) (name : String) (v : Yaml.Node) : Yaml.Fill Settings := do
  match name with
  | "analysis" => return { s with analysis := (← Yaml.fillText v).getD s.analysis }
  | "solver" => return { s with solver := (← Yaml.fillText v).getD s.solver }
  | "format" => return { s with format := (← Yaml.fillText v).getD s.format }
  | "cache_enabled" => return { s with cacheEnabled := (← Yaml.fillBool v).getD s.cacheEnabled }
  | "cache_path" => return { s with cachePath := (← Yaml.fillText v).getD s.cachePath }
  | "cache_size" => return { s with cacheSize := (← Yaml.fillInt v).getD s.cacheSize }
  | _ => return { s with verbose := (← Yaml.fillBool v).getD s.verbose }

/-- Overlays the settings of a document. -/
def ofNode (s : Settings) (n : Yaml.Node) : Yaml.Fill Settings :=
  Yaml.fillRecord "config.Config" names setNode n s

/-- Overlays the settings of a file's contents. -/
def overlay (s : Settings) (contents : Bytes) : Except Yaml.ReadError Settings :=
  match Yaml.Document.ofBytes contents with
  | none => .error .malformed
  | some none => .ok s
  | some (some document) =>
    match (s.ofNode document.root).outcome document.numbered with
    | none => .error .malformed
    | some (s, []) => .ok s
    | some (_, problems) => .error (.misfits problems)

/-- The truth value of a variable. -/
def isTrue (s : String) : Bool := s == "true" || s == "1" || s == "yes"

/-- The number in a variable, if it is positive. -/
def positive? (s : String) : Option Int := (Text.toInt? s).filter (0 < ·)

def overlayVariables (env : Environment) (s : Settings) : Settings :=
  { analysis := (env.get? "MCA_ANALYSIS").getD s.analysis
    solver := (env.get? "MCA_SOLVER").getD s.solver
    format := (env.get? "MCA_FORMAT").getD s.format
    cacheEnabled := ((env.get? "MCA_CACHE_ENABLED").map isTrue).getD s.cacheEnabled
    cachePath := (env.get? "MCA_CACHE_PATH").getD s.cachePath
    cacheSize := ((env.get? "MCA_CACHE_SIZE").bind positive?).getD s.cacheSize
    verbose := ((env.get? "MCA_VERBOSE").map isTrue).getD s.verbose }

/-- Checks that the settings name things that exist. -/
def validate (s : Settings) : Except SettingsFault Unit :=
  if (AnalysisKind.read? s.analysis).isNone then .error (.analysis s.analysis)
  else if (SolverKind.read? s.solver).isNone then .error (.solver s.solver)
  else if (OutputFormat.read? s.format).isNone then .error (.format s.format)
  else if s.cacheEnabled && s.cachePath == "" then .error .noCachePath
  else if s.cacheEnabled && s.cacheSize ≤ 0 then .error .noCacheSize
  else .ok ()

/-- Settings that pass the check. -/
def checked (s : Settings) : Except SettingsError Settings :=
  match s.validate with
  | .ok () => .ok s
  | .error fault => .error (.invalid fault)

def overlayFile (env : Environment) (path : String) (s : Settings) :
    Except SettingsError Settings :=
  match env.files.read path with
  | .error e => .error (.unreadable path e)
  | .ok contents =>
    match s.overlay contents with
    | .ok s => .ok s
    | .error e => .error (.unparsable path e)

/-- Overlays the settings of a file that may be missing. -/
def overlayFileIfThere (env : Environment) (path : String) (s : Settings) :
    Except SettingsError Settings :=
  match overlayFile env path s with
  | .error (.unreadable path e) =>
    if e.fault == .missing then .ok s else .error (.unreadable path e)
  | result => result

/-- The settings from all sources. -/
def load (env : Environment) : Except SettingsError Settings := do
  let s ← overlayFileIfThere env (globalPath env) (default env)
  let s ← overlayFileIfThere env projectPath (overlayVariables env s)
  s.checked

/-- The settings from one file and the variables. -/
def loadFrom (env : Environment) (path : String) : Except SettingsError Settings := do
  let s ← overlayFile env path (default env)
  (overlayVariables env s).checked

/-! ## Writing and use -/

def toData (s : Settings) : Data :=
  .record [("analysis", .text s.analysis), ("solver", .text s.solver), ("format", .text s.format),
    ("cache_enabled", .bool s.cacheEnabled), ("cache_path", .text s.cachePath),
    ("cache_size", .int s.cacheSize), ("verbose", .bool s.verbose)]

/-- Writes the settings to a file and makes its directory. -/
def save (s : Settings) (path : String) (fs : Files) : Except SaveError Files :=
  let dir := Path.parent path
  match fs.makeDirectories dir with
  | .error e => .error (.directory (Text.ofBytes dir) e)
  | .ok fs =>
    match fs.write path (Text.toBytes (Yaml.write 4 s.toData)) with
    | .error e => .error (.file path e)
    | .ok fs => .ok fs

/-- The analysis and the solver of the settings, or the message that refuses one of them. -/
def choice (s : Settings) : Except String (AnalysisKind × SolverKind) := choose s.analysis s.solver

end Settings

end MicroFlow
