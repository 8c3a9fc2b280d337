import MicroFlow.Flow.Solver
import MicroFlow.Graph.Lowering
import MicroFlow.Graph.Stats

/-!
# Reports

A report is the complete outcome of one analysis of one program: the variables and
edges of the graph, what the analysis says about every node, the figures of the graph
and the findings made when it was built.

A list of variables, edges or nodes can be absent, which is not the same as empty
when a report is written.
-/

namespace MicroFlow

namespace Report

/-- A declared variable. -/
structure Variable where
  name : String := ""
  kind : String := ""
  length : Int := 0
deriving DecidableEq, Repr, Inhabited

/-- An edge of the graph. -/
structure Edge where
  id : Int := 0
  source : Int := 0
  target : Int := 0
  kind : String := ""
  action : String := ""
deriving DecidableEq, Repr, Inhabited

/-- What the analysis says about a node. -/
structure Node where
  id : Int := 0
  terminal : Bool := false
  defined : Bool := false
  bindings : List Binding := []
deriving DecidableEq, Repr, Inhabited

/-- A finding in words. -/
structure Diagnostic where
  pos : Pos := ⟨0, 0⟩
  severity : String := ""
  message : String := ""
deriving DecidableEq, Repr, Inhabited

/-- How a diagnostic is written. -/
def Diagnostic.text (d : Diagnostic) : String :=
  d.pos.text ++ ": " ++ d.severity ++ ": " ++ d.message

def Diagnostic.ofFinding (f : Finding) : Diagnostic := ⟨f.pos, f.severity, f.message⟩

end Report

/-- The outcome of one analysis. -/
structure Report where
  analysis : String := ""
  solver : String := ""
  steps : Int := 0
  vars : Option (List Report.Variable) := none
  edges : Option (List Report.Edge) := none
  nodes : Option (List Report.Node) := none
  stats : Stats := {}
  diagnostics : List Report.Diagnostic := []
deriving DecidableEq, Repr, Inhabited

namespace Report

/-- A list that is absent when it would be empty. -/
def present {α : Type} : List α → Option (List α)
  | [] => none
  | xs => some xs

/-- The entry for a variable. -/
def Variable.ofDeclaration (d : Declaration) : Variable := ⟨d.name, d.kind.name, d.length⟩

/-- The entry for an edge. -/
def Edge.ofEdge (g : Graph) (e : MicroFlow.Edge) : Except Fault Edge := do
  let (i, j) ← g.ends e
  match e.action.text? with
  | some text => return ⟨e.id, i, j, e.action.kind.name, text⟩
  | none => .error .brokenReference

/--
The entry for the node at a position.  A mapping of a state that cannot occur counts
as undefined.
-/
def Node.ofValue {M : Type} (a : Analysis M) (g : Graph) (slot : Nat) (value : Option M) :
    Except Fault Node := do
  let n ← g.nodeAt slot
  match value with
  | some m =>
    if a.reachable m then return ⟨slot, n.terminal, true, ← a.bindings m⟩
    else return ⟨slot, n.terminal, false, []⟩
  | none => return ⟨slot, n.terminal, false, []⟩

def ofSolution {M : Type} (a : Analysis M) (g : Graph) (solver : String) (s : Solution M)
    (findings : List Finding) : Except Fault Report := do
  let stats ← g.stats
  let edges ← g.edges.toList.mapM (Edge.ofEdge g)
  let nodes ← s.values.toList.zipIdx.mapM fun (v, i) => Node.ofValue a g i v
  return {
    analysis := a.name
    solver := solver
    steps := s.steps
    vars := present (g.vars.map Variable.ofDeclaration)
    edges := present edges
    nodes := present nodes
    stats := stats
    diagnostics := findings.map Diagnostic.ofFinding }

/-- The entries of the nodes. -/
def nodeList (r : Report) : List Node := r.nodes.getD []

/-- The entry of a node by position. -/
def node? (r : Report) (id : Int) : Option Node :=
  if id < 0 then none else r.nodeList[id.toNat]?

/-- What the report says about a variable at a node. -/
def lookup? (r : Report) (id : Int) (name : String) : Option String := do
  let n ← r.node? id
  let b ← n.bindings.find? (·.name == name)
  return b.value

end Report

end MicroFlow
