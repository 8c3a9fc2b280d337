import MicroFlow.Graph.Basic

/-!
# Well-formed graphs

`validate` checks that every node carries its position as its number, that exactly
one node is terminal, that every edge carries its position and is attached to listed
nodes, that actions are well formed and that every access refers to a declared
variable.  The first violation is reported.
-/

namespace MicroFlow

/-- Why a graph is not well formed. -/
inductive GraphError where
  /-- The number of a node does not lead to that node. -/
  | incoherent (node : Int)
  /-- The graph has not exactly one terminal node. -/
  | terminals (count : Nat)
  /-- An edge does not carry its position; `node` is where it starts. -/
  | misplacedEdge (id : Int) (slot : Nat) (node : Int)
  | action (edge : String) (error : ActionError)
  | undeclared (name : String) (kind : Kind)
  /-- A reference leads nowhere. -/
  | fault (f : Fault)
deriving DecidableEq, Repr

/-- The message for a node number that does not lead to its node. -/
def incoherentText (node : Int) : String :=
  if node < 0 then "incoherent program graph"
  else "incoherent program graph at node q" ++ toString node

/-- The message for a graph that is not well formed. -/
def GraphError.message? : GraphError → Option String
  | incoherent node => some (incoherentText node)
  | terminals count =>
    some ("graph has " ++ toString count ++ " terminal nodes: " ++ incoherentText (-1))
  | misplacedEdge id slot node =>
    some ("edge " ++ toString id ++ " stored at " ++ toString slot ++ ": " ++ incoherentText node)
  | action edge error => some ("edge " ++ edge ++ ": " ++ error.message)
  | undeclared name kind => some ("undeclared " ++ kind.name ++ " " ++ Text.quote name)
  | fault f => f.message?

namespace Graph

/-- The value of a computation on a graph that is being checked. -/
def checked {α : Type} : Except Fault α → Except GraphError α
  | .ok a => .ok a
  | .error f => .error (.fault f)

/-- Every node is there and carries its position. -/
def checkNodes : Nat → List (Option Node) → Except GraphError Unit
  | _, [] => .ok ()
  | slot, some n :: rest =>
    if n.id = slot then checkNodes (slot + 1) rest else .error (.incoherent slot)
  | slot, none :: _ => .error (.incoherent slot)

/-- The number of terminal nodes. -/
def terminalCount (g : Graph) : Nat :=
  (g.nodes.toList.filter fun n => (n.map Node.terminal).getD false).length

/-- An end of an edge is attached to the listed node that its number leads to. -/
def checkEnd (g : Graph) (p : Endpoint) : Except GraphError Unit := do
  let n ← checked (g.endNode p)
  if 0 ≤ n.id ∧ n.id < g.nodes.size ∧ p = .listed n.id.toNat then .ok ()
  else .error (.incoherent n.id)

/-- An access refers to a declared variable. -/
def checkAccess (g : Graph) (a : Access) : Except GraphError Unit :=
  match g.vars.of a with
  | some _ => .ok ()
  | none => .error (.undeclared a.name a.kind)

/-- Checks the edge at a position. -/
def checkEdge (g : Graph) (slot : Nat) (e : Edge) : Except GraphError Unit := do
  if e.id ≠ slot then
    let n ← checked (g.endNode e.source)
    .error (.misplacedEdge e.id slot n.id)
  else
    g.checkEnd e.source
    g.checkEnd e.target
    match e.action.validate with
    | .error err => .error (.action (← checked (g.edgeText e)) err)
    | .ok () => (e.action.uses ++ e.action.defines.toList).forM g.checkAccess

/-- Checks the edges from a position on. -/
def checkEdges (g : Graph) : Nat → List Edge → Except GraphError Unit
  | _, [] => .ok ()
  | slot, e :: rest => do
    g.checkEdge slot e
    g.checkEdges (slot + 1) rest

/-- Checks that the graph is well formed. -/
def validate (g : Graph) : Except GraphError Unit := do
  checkNodes 0 g.nodes.toList
  let exit ← checked g.exitNode
  if g.terminalCount ≠ 1 ∨ exit.terminal = false then .error (.terminals g.terminalCount)
  else g.checkEdges 0 g.edges.toList

end Graph

end MicroFlow
