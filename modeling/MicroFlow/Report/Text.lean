import MicroFlow.Report.Basic

/-!
# Reports as text

The text form of a report is a headline and sections for the variables, the edges,
the nodes and the diagnostics.  Sections without entries are left out, except those
of edges and nodes.
-/

namespace MicroFlow.Report

def variableLine (v : Variable) : String :=
  "  " ++ v.kind ++ " " ++ v.name ++ (if 0 < v.length then "[" ++ toString v.length ++
    "]" else "") ++ "\n"

def edgeLine (e : Edge) : String :=
  "  q" ++ toString e.source ++ " --" ++ e.action ++ "--> q" ++ toString e.target ++ "\n"

def nodeLine (n : Node) : String :=
  let said :=
    if n.defined then ", ".intercalate (n.bindings.map fun b => b.name ++ " = " ++ b.value)
    else "undefined"
  "  q" ++ toString n.id ++ (if n.terminal then " (terminal)" else "") ++ ": " ++ said ++ "\n"

/-- A section with a title, the number of its lines, and the lines. -/
def textSection (title : String) (lines : List String) : String :=
  "\n" ++ title ++ " (" ++ toString lines.length ++ "):\n" ++ String.join lines

/-- The text form of a report. -/
def text (r : Report) : String :=
  let declared := (r.vars.getD []).map variableLine
  let diagnostics := r.diagnostics.map fun d => "  " ++ d.text ++ "\n"
  "=== " ++ r.analysis ++ " (" ++ r.solver ++ ", " ++ toString r.steps ++ " steps) ===\n" ++
    (if declared.isEmpty then "" else textSection "Variables" declared) ++
    textSection "Edges" ((r.edges.getD []).map edgeLine) ++
    textSection "Nodes" (r.nodeList.map nodeLine) ++
    (if diagnostics.isEmpty then "" else textSection "Diagnostics" diagnostics)

end MicroFlow.Report
