import MicroFlow.Settings.Health

/-!
# Settings and checks as text
-/

namespace MicroFlow

/-- The sign in front of a status. -/
def CheckStatus.icon : CheckStatus → String
  | ready => "✓"
  | empty => "✓"
  | disabled => "-"
  | error => "✗"

namespace Health

def statusLines (status : CheckStatus) (error : String) : String :=
  "  Status: " ++ status.icon ++ " " ++ status.name ++ "\n" ++
    (if error != "" && status == .error then "  Error: " ++ error ++ "\n" else "")

/-- The text form of a check; `elapsed` is the time that the probe took. -/
def text (h : Health) (elapsed : String) : String :=
  (if h.path == "" then "Using config: defaults (run 'mca init' to create a file)\n"
    else "Using config: " ++ h.path ++ " (" ++ h.scope ++ ")\n") ++
  "Output format: " ++ h.format ++ "\n" ++
  "\nReport cache:\n" ++
  "  Path: " ++ h.cache.path ++ "\n" ++
  statusLines h.cache.status h.cache.error ++
  (if h.cache.status == .ready then "  Reports: " ++ toString h.cache.entries ++ "\n" else "") ++
  "\nAnalysis pipeline:\n" ++
  "  Analysis: " ++ h.pipeline.analysis ++ "\n" ++
  "  Solver: " ++ h.pipeline.solver ++ "\n" ++
  statusLines h.pipeline.status h.pipeline.error ++
  (if h.pipeline.status == .ready then
      "  Probe: " ++ toString h.pipeline.steps ++ " steps in " ++ elapsed ++ "\n"
    else "")

end Health

/-- The text that shows settings before they are saved to a path. -/
def Settings.preview (s : Settings) (path : String) : String :=
  "=== Configuration Preview ===\n" ++
  "Config path: " ++ path ++ "\n" ++
  "Analysis: " ++ s.analysis ++ "\n" ++
  "Solver: " ++ s.solver ++ "\n" ++
  "Format: " ++ s.format ++ "\n" ++
  (if s.cacheEnabled then "Cache: " ++ s.cachePath ++ " (" ++ toString s.cacheSize ++ " reports)\n"
    else "Cache: disabled\n") ++
  "================================\n"

end MicroFlow
