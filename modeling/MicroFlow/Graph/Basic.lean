import MicroFlow.Fault
import MicroFlow.Graph.Action

/-!
# Program graphs

A program graph has a node for every point of a program and an edge, labelled with
an action, for every way to get from one point to another.  A node lists its
outgoing and incoming edges by their position in the graph; an edge is attached to
two nodes.

A graph is a plain value and can be damaged: a node can be blanked out, carry a
number that is not its position, or list edges that are not its own; an edge can be
attached to a node that the graph does not list.  `Endpoint` tells the two cases of
attachment apart.  Graphs made from programs are well formed (`Graph.validate`).
-/

namespace MicroFlow

/-- A point of the program. -/
structure Node where
  id : Int
  terminal : Bool := false
  /-- Positions of the edges that leave the node. -/
  out : List Nat := []
  /-- Positions of the edges that enter the node. -/
  into : List Nat := []
deriving DecidableEq, Repr, Inhabited

/-- Where an edge is attached. -/
inductive Endpoint where
  /-- The node at a position of the graph. -/
  | listed (slot : Nat)
  /-- A node of its own, which the graph does not list. -/
  | stray (node : Node)
deriving DecidableEq, Repr, Inhabited

/-- A step from one point to another. -/
structure Edge where
  id : Int
  source : Endpoint
  target : Endpoint
  action : Action
deriving DecidableEq, Repr, Inhabited

/-- The declared variables in order; a variable is known by its position. -/
abbrev Variables := List Declaration

namespace Variables

/-- The position of the variable with a name, if it is declared with the kind. -/
def lookup (vars : Variables) (name : String) (kind : Kind) : Option Nat :=
  match vars.findIdx? (·.name == name) with
  | some i => if (vars[i]?.map Declaration.kind) = some kind then some i else none
  | none => none

/-- The position of the variable that an access refers to. -/
def of (vars : Variables) (a : Access) : Option Nat := vars.lookup a.name a.kind

/-- The variables of one kind, sorted by name. -/
def byKind (vars : Variables) (kind : Kind) : List Declaration :=
  (vars.filter (·.kind == kind)).mergeSort fun a b => a.name ≤ b.name

end Variables

/-- The graph of a program. -/
structure Graph where
  /-- The nodes by position; a node can be blanked out. -/
  nodes : Array (Option Node)
  /-- The edges by position, in the order of construction. -/
  edges : Array Edge
  vars : Variables
  /-- The point where the program ends. -/
  exit : Endpoint
deriving DecidableEq, Repr, Inhabited

namespace Graph

/-- The node at a position. -/
def nodeAt? (g : Graph) (slot : Nat) : Option Node := g.nodes[slot]?.join

/-- The node at a position, which has to be there. -/
def nodeAt (g : Graph) (slot : Nat) : Except Fault Node :=
  match g.nodeAt? slot with
  | some n => .ok n
  | none => .error .brokenReference

/-- The node at an end of an edge. -/
def endNode (g : Graph) : Endpoint → Except Fault Node
  | .listed slot => g.nodeAt slot
  | .stray n => .ok n

/-- The edge at a position, which has to be there. -/
def edgeAt (g : Graph) (i : Nat) : Except Fault Edge :=
  match g.edges[i]? with
  | some e => .ok e
  | none => .error .brokenReference

/-- The node where the program starts. -/
def entry (g : Graph) : Except Fault Node := g.nodeAt 0

/-- The node where the program ends. -/
def exitNode (g : Graph) : Except Fault Node := g.endNode g.exit

/-- The node where an analysis starts: the exit when it runs backward. -/
def start (g : Graph) (reverse : Bool) : Except Fault Node :=
  if reverse then g.exitNode else g.entry

/-- A node number as a position of the graph. -/
def slotOf (g : Graph) (id : Int) : Except Fault Nat :=
  if 0 ≤ id ∧ id < g.nodes.size then .ok id.toNat else .error .brokenReference

/-- The numbers of the nodes that an edge leads from and to. -/
def ends (g : Graph) (e : Edge) : Except Fault (Int × Int) := do
  return ((← g.endNode e.source).id, (← g.endNode e.target).id)

/-- How an edge is written. -/
def edgeText (g : Graph) (e : Edge) : Except Fault String := do
  let (i, j) ← g.ends e
  return "q" ++ toString i ++ " -> q" ++ toString j ++ ": " ++ e.action.shown

end Graph

end MicroFlow
