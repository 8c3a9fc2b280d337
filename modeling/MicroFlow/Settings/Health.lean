import MicroFlow.Cache.Store
import MicroFlow.Settings.Basic

/-!
# A check of the settings at work

The check opens the report cache and analyses a small program with the analysis and the
solver of the settings.
-/

namespace MicroFlow

/-- How a check went. -/
inductive CheckStatus where
  | ready
  | empty
  | disabled
  | error
deriving DecidableEq, Repr

def CheckStatus.name : CheckStatus → String
  | ready => "ready"
  | empty => "empty"
  | disabled => "disabled"
  | error => "error"

/-- The state of the report cache. -/
structure CacheHealth where
  path : String
  status : CheckStatus
  entries : Nat := 0
  error : String := ""
deriving Repr

/-- The outcome of the probe. -/
structure PipelineHealth where
  analysis : String
  solver : String
  steps : Int := 0
  status : CheckStatus
  error : String := ""
deriving Repr

/-- All that the check found. -/
structure Health where
  /-- The settings file in use; empty if there is none. -/
  path : String
  scope : String
  format : String
  cache : CacheHealth
  pipeline : PipelineHealth
deriving Repr

namespace Health

/-- The program that is analysed: declarations, a loop and a branch. -/
def probe : String :=
  "int x; int y;\nread x;\ny := 0;\nwhile (x > 0) \x7b\n" ++
    "  if (x > 1) \x7b y := y + x; \x7d else \x7b y := y - 1; \x7d\n" ++
    "  x := x - 1;\n\x7d\nwrite y;"

/-- Whether a settings file belongs to the home directory or to the project. -/
def scopeOf (env : Environment) (path : String) : String :=
  if path == "" then ""
  else
    match env.home with
    | some home =>
      if (Path.append home ".mca").isPrefixOf (Text.toBytes path) then "global" else "project"
    | none => "project"

/-- Opens the report cache. -/
def checkCache (env : Environment) (s : Settings) : CacheHealth :=
  if !s.cacheEnabled then { path := s.cachePath, status := .disabled }
  else
    match ReportCache.fetch { capacity := s.cacheSize } s.cachePath env.files with
    | .error e => { path := s.cachePath, status := .error, error := e.message }
    | .ok c =>
      { path := s.cachePath, status := if c.size = 0 then .empty else .ready, entries := c.size }

/-- Analyses the probe. -/
def checkPipeline (cancelled : Bool) (s : Settings) : PipelineHealth :=
  let failed (message : String) : PipelineHealth :=
    { analysis := s.analysis, solver := s.solver, status := .error, error := message }
  match s.choice with
  | .error message => failed message
  | .ok (analysis, solver) =>
    let q : Request := { source := Text.toBytes probe, analysis, solver, cancelled }
    match q.runUncached.result with
    | .ok (some r) =>
      { analysis := r.analysis, solver := r.solver, steps := r.steps, status := .ready }
    | .ok none => failed ""
    | .error e => failed (e.message?.getD "")

/-- Checks settings, with the file they came from. -/
def check (env : Environment) (cancelled : Bool) (s : Settings) (path : String) : Health :=
  { path := path
    scope := scopeOf env path
    format := s.format
    cache := checkCache env s
    pipeline := checkPipeline cancelled s }

/-- One of the checks ended in an error. -/
def failed (h : Health) : Bool := h.cache.status == .error || h.pipeline.status == .error

/-- The message when there are no settings to check. -/
def noSettingsText : String := "config is nil"

end Health

end MicroFlow
