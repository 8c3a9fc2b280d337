import MicroFlow.Command.Job
import MicroFlow.Dependence.Text
import MicroFlow.Graph.Dot
import MicroFlow.Report.Summary
import MicroFlow.Run.Batch

/-!
# Commands on programs

* `analyze` : the report of a program, or those of the programs below a directory.
* `graph`   : the summary of a program graph, or a drawing of it.
* `compare` : how the solvers fare on an analysis of a program.
* `slice`   : the slice of an edge.
-/

namespace MicroFlow.Job

open MicroFlow.Text (Bytes)

/-- A structured value as indented JSON on lines of its own. -/
def printData (d : Data) : Job Unit := print (Json.indented d ++ "\n")

/-! ## Reports -/

/-- A report as it is printed.  A report that is absent has no text. -/
def encodeReport (f : OutputFormat) : Option Report → Job Bytes
  | some r => orFail EncodeError.message (f.encode r)
  | none =>
    match f with
    | .text => throw (.fault .brokenReference)
    | f => orFail EncodeError.message (f.encodeData fun _ => .null)

/-- Prints a report, or writes it to a file. -/
def writeReport (s : Session) (l : Logger) (path : String) (f : OutputFormat) (r : Option Report) :
    Job Unit := do
  if path == "" then emit (← encodeReport f r)
  else
    create path
    fill path (← encodeReport f r)
    note s l [⟨.info, "report written", [.text "path", .text path, .text "format", .text f.name]⟩]

/-- The part of a text for one file. -/
def fileText (r : FileReport) : Job Bytes := do
  let head : Bytes := Text.toBytes "--- " ++ r.path ++ Text.toBytes " ---\n"
  if r.failed then return head ++ Text.toBytes ("error: " ++ r.error ++ "\n")
  else return head ++ (← encodeReport .text r.report)

/-- The number of files that failed. -/
def failures (results : List FileReport) : Nat := results.countP FileReport.failed

/-- The reports of a batch as they are printed. -/
def encodeBatch (f : OutputFormat) (results : List FileReport) : Job Bytes := do
  match f with
  | .text =>
    let parts ← results.mapM fileText
    return (parts.intersperse (Text.toBytes "\n")).flatten ++
      Text.toBytes ("\n" ++ toString results.length ++ " files analysed, " ++
        toString (failures results) ++ " failed\n")
  | f =>
    orFail EncodeError.message (f.encodeData fun d => .list (results.map (FileReport.toData d)))

/-- Prints the reports of a batch, or writes them to a file.  It fails if one of the files
failed. -/
def writeBatch (s : Session) (l : Logger) (path : String) (f : OutputFormat)
    (results : List FileReport) :
    Job Unit := do
  if path == "" then emit (← encodeBatch f results)
  else
    create path
    fill path (← encodeBatch f results)
    note s l [⟨.info, "reports written",
      [.text "path", .text path, .text "files", .int results.length]⟩]
  if 0 < failures results then
    fail (toString (failures results) ++ " of " ++ toString results.length ++ " files failed")

/-- The settings with the flags of an analysis. -/
def withFlags (a : Arguments) (settings : Settings) : Settings :=
  let or (name : String) (old : String) : String := if a.text name == "" then old else a.text name
  { settings with
    analysis := or "analysis" settings.analysis
    solver := or "solver" settings.solver
    format := if a.isOn "json" then OutputFormat.json.name else or "format" settings.format
    cacheEnabled := settings.cacheEnabled && !a.isOn "no-cache" }

/-- Analyses a program, or the programs below a directory. -/
def analyze (s : Session) (a : Arguments) (path : String) : Job Unit := do
  let settings := withFlags a (← settings s a)
  orFail SettingsFault.message settings.validate
  let l := logger settings a
  let (analysis, solver) ← orFail id settings.choice
  let cache ← openCache s l settings
  let format := OutputFormat.ofName settings.format
  let target := a.text "output"
  let fs := (← get).files
  if path != "-" && fs.isDirectory path then
    match Batch.runDirectory { analysis, solver } fs cache path with
    | .error e =>
      match e.message? with
      | some message => fail message
      | none => throw (.fault .brokenReference)
    | .ok out =>
      note s l out.entries
      keepCache s l settings out.cache
      writeBatch s l target format out.results
  else
    let src ← source s path
    let out := Request.run { source := src, analysis, solver } cache
    note s l out.entries
    let r ← orRunError out.result
    keepCache s l settings out.cache
    writeReport s l target format r

/-! ## Graphs, comparisons and slices -/

/-- The compiled program at a path. -/
def program (s : Session) (path : String) : Job Built := do
  orRunError (compiled (← source s path))

/-- Prints the graph of a program. -/
def graph (s : Session) (a : Arguments) (path : String) : Job Unit := do
  let b ← program s path
  if a.isOn "dot" then print ((← orFault (b.graph.dot (drawingName path))) ++ "\n")
  else
    let summary ← orFault (GraphSummary.ofBuilt b)
    if a.isOn "json" then printData summary.toData else print summary.text

def compareSolvers (s : Session) (a : Arguments) (path : String) : Job Unit := do
  let settings ← settings s a
  let name := if a.text "analysis" == "" then settings.analysis else a.text "analysis"
  match AnalysisKind.read? name with
  | none => fail (AnalysisKind.unknownText name)
  | some analysis =>
    let src ← source s path
    let (c, entries) ← orRunError (compare false src analysis)
    note s (logger settings a) entries
    if a.isOn "json" then printData (.record (c.fields ++ [("agree", .bool c.agree)]))
    else print c.text
    if !c.agree then fail ("solvers disagree on " ++ c.analysis)

/-- Prints the slice of an edge. -/
def slice (s : Session) (a : Arguments) (path : String) : Job Unit := do
  let b ← program s path
  let edge := a.number "edge" (-1)
  let count : Int := b.graph.edges.size
  if edge < 0 || count ≤ edge then
    fail ("edge must be between 0 and " ++ toString (count - 1) ++ ": " ++ toString edge)
  let only := if (a.get? "var").isSome then some (a.text "var") else none
  let direction : DependenceGraph.Direction := if a.isOn "forward" then .forward else .backward
  let g ← orFault (DependenceGraph.ofGraph b.graph)
  let answer : SliceAnswer :=
    { graph := g, edge, direction, only, edges := (g.slice direction only edge).getD [] }
  if a.isOn "json" then printData answer.toData else print (← orFault answer.text)

end MicroFlow.Job
