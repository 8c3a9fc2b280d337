import MicroFlow.Data.Decoder
import MicroFlow.Report.Basic

/-!
# Reports as structured values

`toData` makes the structured value of a report, `ofValue` fills a report from the
value of a format.  The formats share the names of all fields but those of a source
position.  A list that is absent is written as such or as an empty list, depending on
the format.
-/

namespace MicroFlow.Report

/-- What the formats do not agree on. -/
structure Dialect where
  /-- The names for the line and the column of a position. -/
  line : String := "line"
  col : String := "col"
  /-- An absent list is written as an empty one. -/
  emptyForAbsent : Bool := false

/-- JSON writes an absent list as such. -/
def Dialect.json : Dialect := {}

/-- YAML has no absent lists. -/
def Dialect.yaml : Dialect := { emptyForAbsent := true }

/-- MessagePack names the parts of a position in upper case. -/
def Dialect.msgpack : Dialect := { line := "Line", col := "Col" }

/-! ## Writing -/

/-- A list that can be absent. -/
def Dialect.list {α : Type} (dialect : Dialect) (item : α → Data) : Option (List α) → Data
  | some xs => .list (xs.map item)
  | none => if dialect.emptyForAbsent then .list [] else .null

def Variable.toData (v : Variable) : Data :=
  .record ([("name", .text v.name), ("kind", .text v.kind)] ++ Data.intUnlessZero "length" v.length)

def Edge.toData (e : Edge) : Data :=
  .record [("id", .int e.id), ("from", .int e.source), ("to", .int e.target),
    ("kind", .text e.kind),
    ("action", .text e.action)]

def bindingData (b : Binding) : Data := .record [("name", .text b.name), ("value", .text b.value)]

def Node.toData (n : Node) : Data :=
  .record ([("id", .int n.id)] ++ Data.flagIfSet "terminal" n.terminal ++
    [("defined", .bool n.defined)] ++
    Data.listUnlessEmpty "bindings" (n.bindings.map bindingData))

def statsData (s : Stats) : Data :=
  .record [("nodes", .int s.nodes), ("edges", .int s.edges), ("guards", .int s.guards),
    ("declarations", .int s.declarations), ("loops", .int s.loops),
      ("loop_nests", .int s.loopNests),
    ("unreachable", .int s.unreachable), ("cyclomatic_complexity", .int s.cyclomaticComplexity)]

def Diagnostic.toData (dialect : Dialect) (d : Diagnostic) : Data :=
  .record [("pos", .record [(dialect.line, .int d.pos.line), (dialect.col, .int d.pos.col)]),
    ("severity", .text d.severity), ("message", .text d.message)]

/-- A report as a structured value. -/
def toData (dialect : Dialect) (r : Report) : Data :=
  .record ([("analysis", .text r.analysis), ("solver", .text r.solver), ("steps", .int r.steps),
    ("variables", dialect.list Variable.toData r.vars),
    ("edges", dialect.list Edge.toData r.edges),
    ("nodes", dialect.list Node.toData r.nodes),
    ("stats", statsData r.stats)] ++
    Data.listUnlessEmpty "diagnostics" (r.diagnostics.map (Diagnostic.toData dialect)))

/-! ## Reading -/

variable {V : Type} (d : Decoder V)

def Variable.ofValue : V → Variable → Option Variable :=
  d.readRecord ["name", "kind", "length"] {} fun key v r =>
    match key with
    | "name" => do return { r with name := ← d.text v r.name }
    | "kind" => do return { r with kind := ← d.text v r.kind }
    | _ => do return { r with length := ← d.int v r.length }

def Edge.ofValue : V → Edge → Option Edge :=
  d.readRecord ["id", "from", "to", "kind", "action"] {} fun key v r =>
    match key with
    | "id" => do return { r with id := ← d.int v r.id }
    | "from" => do return { r with source := ← d.int v r.source }
    | "to" => do return { r with target := ← d.int v r.target }
    | "kind" => do return { r with kind := ← d.text v r.kind }
    | _ => do return { r with action := ← d.text v r.action }

def bindingOfValue : V → Binding → Option Binding :=
  d.readRecord ["name", "value"] { name := "", value := "" } fun key v r =>
    match key with
    | "name" => do return { r with name := ← d.text v r.name }
    | _ => do return { r with value := ← d.text v r.value }

def Node.ofValue? : V → Node → Option Node :=
  d.readRecord ["id", "terminal", "defined", "bindings"] {} fun key v r =>
    match key with
    | "id" => do return { r with id := ← d.int v r.id }
    | "terminal" => do return { r with terminal := ← d.flag v r.terminal }
    | "defined" => do return { r with defined := ← d.flag v r.defined }
    | _ => do
      let bindings ← d.readList (bindingOfValue d) { name := "", value := "" } v (some r.bindings)
      return { r with bindings := bindings.getD [] }

def statsOfValue : V → Stats → Option Stats :=
  d.readRecord ["nodes", "edges", "guards", "declarations", "loops", "loop_nests", "unreachable",
      "cyclomatic_complexity"] {} fun key v r =>
    match key with
    | "nodes" => do return { r with nodes := ← d.int v r.nodes }
    | "edges" => do return { r with edges := ← d.int v r.edges }
    | "guards" => do return { r with guards := ← d.int v r.guards }
    | "declarations" => do return { r with declarations := ← d.int v r.declarations }
    | "loops" => do return { r with loops := ← d.int v r.loops }
    | "loop_nests" => do return { r with loopNests := ← d.int v r.loopNests }
    | "unreachable" => do return { r with unreachable := ← d.int v r.unreachable }
    | _ => do return { r with cyclomaticComplexity := ← d.int v r.cyclomaticComplexity }

def posOfValue (dialect : Dialect) : V → Pos → Option Pos :=
  d.readRecord [dialect.line, dialect.col] ⟨0, 0⟩ fun key v r =>
    if key == dialect.line then do return { r with line := ← d.int v r.line }
    else do return { r with col := ← d.int v r.col }

def Diagnostic.ofValue (dialect : Dialect) : V → Diagnostic → Option Diagnostic :=
  d.readRecord ["pos", "severity", "message"] {} fun key v r =>
    match key with
    | "pos" => do return { r with pos := ← posOfValue d dialect v r.pos }
    | "severity" => do return { r with severity := ← d.text v r.severity }
    | _ => do return { r with message := ← d.text v r.message }

/-- Fills a report from a value. -/
def ofValue (dialect : Dialect) : V → Report → Option Report :=
  d.readRecord ["analysis", "solver", "steps", "variables", "edges", "nodes", "stats",
    "diagnostics"] {}
    fun key v r =>
      match key with
      | "analysis" => do return { r with analysis := ← d.text v r.analysis }
      | "solver" => do return { r with solver := ← d.text v r.solver }
      | "steps" => do return { r with steps := ← d.int v r.steps }
      | "variables" => do return { r with vars := ← d.readList (Variable.ofValue d) {} v r.vars }
      | "edges" => do return { r with edges := ← d.readList (Edge.ofValue d) {} v r.edges }
      | "nodes" => do return { r with nodes := ← d.readList (Node.ofValue? d) {} v r.nodes }
      | "stats" => do return { r with stats := ← statsOfValue d v r.stats }
      | _ => do
        let diagnostics ← d.readList (Diagnostic.ofValue d dialect) {} v (some r.diagnostics)
        return { r with diagnostics := diagnostics.getD [] }

end MicroFlow.Report
