import MicroFlow.Dependence.PostDominators
import MicroFlow.Flow.ReachingDefinitions
import MicroFlow.Flow.Solver

/-!
# Program dependence graphs

The actions on the edges of a program graph depend on each other.  An action depends
by data on the edges whose definition of a variable it reads can reach it.  It
depends by control on a guard when taking the guard makes sure that the action's
starting point is passed, and reaching the guard alone does not.
-/

namespace MicroFlow

/-- The two ways in which an action depends on another. -/
inductive DependenceKind where
  | control
  | data
deriving DecidableEq, Repr, Inhabited

def DependenceKind.name : DependenceKind → String
  | control => "control"
  | data => "data"

/-- One edge depends on another. -/
structure Dependence where
  /-- The edge of the definition or guard. -/
  source : Int
  /-- The dependent edge. -/
  target : Int
  kind : DependenceKind
  /-- The variable of a data dependence, the guard of a control dependence. -/
  label : String
deriving DecidableEq, Repr, Inhabited

/-- How a dependence is written. -/
def Dependence.text (d : Dependence) : String :=
  "e" ++ toString d.source ++ " -" ++ d.kind.name ++ "(" ++ d.label ++ ")-> e" ++ toString d.target

/-- The dependences between the edges of a program graph. -/
structure DependenceGraph where
  program : Graph
  dependences : List Dependence
deriving DecidableEq, Repr

namespace DependenceGraph

/-- The names in a list, each at its first place. -/
def firstNames : List String → List String
  | [] => []
  | x :: rest => x :: (firstNames rest).filter (· != x)

/-- The data dependences of an edge, given the definitions that reach its start. -/
def dataDependences (vars : Variables) (definitions : Option Definitions) (e : Edge) :
    List Dependence :=
  match definitions with
  | none => []
  | some m =>
    (firstNames (e.action.uses.map Access.name)).flatMap fun x =>
      (m.sites vars x).1.map fun (site : Nat) =>
        { source := site, target := e.id, kind := .data, label := x }

/-- An edge that starts at `x` depends on the guard `guard`. -/
def controls (g : Graph) (sets : DominatorSets) (x : Int) (guard : Edge) : Except Fault Bool := do
  let (u, v) ← g.ends guard
  let atTarget ← Graph.dominatorsAt sets v
  if 0 ≤ x ∧ atTarget.has x.toNat then
    return !(← Graph.dominatorsAt sets u).has x.toNat
  else return false

def controlDependences (g : Graph) (sets : DominatorSets) (e : Edge) :
    Except Fault (List Dependence) := do
  let n ← g.endNode e.source
  let guards ← (g.edges.toList.filter (·.action.kind == .boolean)).filterM (controls g sets n.id)
  return guards.map fun guard =>
    { source := guard.id, target := e.id, kind := .control, label := guard.action.shown }

/-- The dependences of an edge: data before control. -/
def dependencesOf (g : Graph) (values : Values Definitions) (sets : DominatorSets) (e : Edge) :
    Except Fault (List Dependence) := do
  let n ← g.endNode e.source
  let (_, definitions) ← Analysis.valueAt values n.id
  return dataDependences g.vars definitions e ++ (← controlDependences g sets e)

/-- The dependence graph of a program graph, ordered by the dependent edge. -/
def ofGraph (g : Graph) : Except Fault DependenceGraph := do
  let solution ← (reachingDefinitions g).chaotic g none
  let sets ← g.postDominators
  let lists ← g.edges.toList.mapM (dependencesOf g solution.values sets)
  return { program := g, dependences := lists.flatten }

def into (p : DependenceGraph) (kind : DependenceKind) (edge : Int) : List Dependence :=
  p.dependences.filter fun d => d.target == edge && d.kind == kind

def outOf (p : DependenceGraph) (kind : DependenceKind) (edge : Int) : List Dependence :=
  p.dependences.filter fun d => d.source == edge && d.kind == kind

/-- The variables of data dependences, sorted. -/
def variableNames (p : DependenceGraph) : List String :=
  (firstNames ((p.dependences.filter (·.kind == .data)).map Dependence.label)).mergeSort

end DependenceGraph

end MicroFlow
