import MicroFlow.Files.Path
import MicroFlow.Report.Encode
import MicroFlow.Report.Text

/-!
# Summaries of program graphs

A summary lists the edges of a graph, the order of its nodes, its figures and the findings
made when it was built.
-/

namespace MicroFlow

/-- The summary of a program graph. -/
structure GraphSummary where
  edges : List String
  /-- The nodes in reverse postorder. -/
  order : List Nat
  stats : Stats
  diagnostics : List Report.Diagnostic
deriving DecidableEq, Repr

namespace GraphSummary

/-- The summary of a compiled program. -/
def ofBuilt (b : Built) : Except Fault GraphSummary := do
  let order ← b.graph.depthFirst false
  let stats ← b.graph.stats
  let edges ← b.graph.edges.toList.mapM b.graph.edgeText
  return {
    edges := edges
    order := order.order
    stats := stats
    diagnostics := b.findings.map Report.Diagnostic.ofFinding }

/-- The summary as a structured value; without edges their list is absent. -/
def toData (s : GraphSummary) : Data :=
  .record ([("edges", if s.edges.isEmpty then .null else .list (s.edges.map .text)),
    ("reverse_postorder", .list (s.order.map fun (i : Nat) => .int i)),
    ("stats", Report.statsData s.stats)] ++
    Data.listUnlessEmpty "diagnostics" (s.diagnostics.map (Report.Diagnostic.toData .json)))

/-- The text form of a summary. -/
def text (s : GraphSummary) : String :=
  let line (l : String) : String := "  " ++ l ++ "\n"
  let diagnostics := s.diagnostics.map fun d => line d.text
  "=== Program graph ===\n" ++
    "Nodes: " ++ toString s.stats.nodes ++ ", Edges: " ++ toString s.stats.edges ++
      ", Guards: " ++ toString s.stats.guards ++ ", Declarations: " ++
        toString s.stats.declarations ++ "\n" ++
    "Loops: " ++ toString s.stats.loops ++ " (nests: " ++ toString s.stats.loopNests ++
      "), Unreachable nodes: " ++ toString s.stats.unreachable ++ "\n" ++
    "Cyclomatic Complexity: " ++ toString s.stats.cyclomaticComplexity ++ "\n" ++
    "Reverse postorder: " ++ " ".intercalate (s.order.map fun i => "q" ++ toString i) ++ "\n" ++
    Report.textSection "Edges" (s.edges.map line) ++
    (if diagnostics.isEmpty then "" else Report.textSection "Diagnostics" diagnostics)

end GraphSummary

/-- A character of a name in a drawing. -/
def isDrawingChar (c : Char) : Bool := c == '_' || c.isAlphanum

/-- The name of a drawing of a file: other characters than letters and digits become `_`. -/
def drawingName (path : String) : String :=
  if path == "-" then "program"
  else
    let base := (Text.ofBytes (Path.base path)).toList
    let ext := (Text.ofBytes (Path.extension path)).toList
    let stem := if ext.isSuffixOf base then base.take (base.length - ext.length) else base
    let name := String.ofList (stem.map fun c => if isDrawingChar c then c else '_')
    if stem.isEmpty || stem.head?.any Char.isDigit then "g_" ++ name else name

end MicroFlow
