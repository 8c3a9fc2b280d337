import MicroFlow.Graph.Basic

/-!
# Edits

Single changes to a graph.  Edits do not keep a graph well formed: they are the ways
in which a graph gets damaged, or mended.  An edit of a node or an edge that is not
there has no result.
-/

namespace MicroFlow

/-- A change to a graph. -/
inductive Edit where
  | renumberNode (slot : Nat) (id : Int)
  | setTerminal (slot : Nat) (value : Bool)
  /-- Blanks out a node.  The edges stay attached to what it was. -/
  | blankNode (slot : Nat)
  /-- Appends a node with the next number. -/
  | addNode
  /-- Appends an edge with the next number and links it at both ends. -/
  | addEdge (source target : Nat) (action : Action)
  | renumberEdge (slot : Nat) (id : Int)
  /-- Attaches the source of an edge to a copy of the node it starts from. -/
  | detachSource (slot : Nat)
  /-- Attaches the target of an edge to a new node of the given number. -/
  | detachTarget (slot : Nat) (id : Int)
  | setKind (slot : Nat) (kind : ActionKind)
  | dropPart (slot : Nat) (part : ActionPart)
  /-- Gives the target of an action another name. -/
  | renameTarget (slot : Nat) (name : String)
  /-- Removes the last edge and unlinks it at both ends. -/
  | removeLastEdge
deriving DecidableEq, Repr

def Action.without (a : Action) : ActionPart → Action
  | .target => { a with target := none }
  | .value => { a with value := .missing }
  | .guard => { a with guard := .missing }
  | .declaration => { a with decl := none }

/-- The node without an edge in its lists. -/
def Node.unlink (i : Nat) (n : Node) : Node :=
  { n with out := n.out.filter (· != i), into := n.into.filter (· != i) }

/-- An end of an edge after the node at a position became `n` and left the graph. -/
def Endpoint.detach (slot : Nat) (n : Node) : Endpoint → Endpoint
  | .listed i => if i = slot then .stray n else .listed i
  | p => p

/-- An end of an edge whose own node, if it has one, loses an edge. -/
def Endpoint.unlink (i : Nat) : Endpoint → Endpoint
  | .stray n => .stray (n.unlink i)
  | p => p

namespace Graph

/-- Changes the node at a position. -/
def mapNode (g : Graph) (slot : Nat) (f : Node → Node) : Except Fault Graph := do
  let n ← g.nodeAt slot
  return { g with nodes := g.nodes.setIfInBounds slot (some (f n)) }

/-- Changes the edge at a position. -/
def mapEdge (g : Graph) (slot : Nat) (f : Edge → Edge) : Except Fault Graph := do
  let e ← g.edgeAt slot
  return { g with edges := g.edges.setIfInBounds slot (f e) }

/-- Changes the action of the edge at a position. -/
def mapAction (g : Graph) (slot : Nat) (f : Action → Action) : Except Fault Graph :=
  g.mapEdge slot fun e => { e with action := f e.action }

/-- Blanks out the node at a position. -/
def blank (g : Graph) (slot : Nat) : Except Fault Graph := do
  if g.nodes.size ≤ slot then .error .brokenReference
  match g.nodeAt? slot with
  | none => return g
  | some n =>
    return { g with
      nodes := g.nodes.setIfInBounds slot none
      edges := g.edges.map fun e =>
        { e with source := e.source.detach slot n, target := e.target.detach slot n }
      exit := g.exit.detach slot n }

/-- Appends an edge between two listed nodes. -/
def link (g : Graph) (source target : Nat) (action : Action) : Except Fault Graph := do
  let i := g.edges.size
  let g ← g.mapNode source fun n => { n with out := n.out ++ [i] }
  let g ← g.mapNode target fun n => { n with into := n.into ++ [i] }
  return { g with
    edges := g.edges.push { id := i, source := .listed source, target := .listed target, action } }

/-- Removes the last edge. -/
def unlinkLast (g : Graph) : Except Fault Graph := do
  let i := g.edges.size - 1
  if g.edges.size = 0 then .error .brokenReference
  return { g with
    nodes := g.nodes.map (Option.map (Node.unlink i))
    edges := g.edges.pop.map fun e =>
      { e with source := e.source.unlink i, target := e.target.unlink i }
    exit := g.exit.unlink i }

/-- The graph after an edit. -/
def edit (g : Graph) : Edit → Except Fault Graph
  | .renumberNode slot id => g.mapNode slot fun n => { n with id }
  | .setTerminal slot value => g.mapNode slot fun n => { n with terminal := value }
  | .blankNode slot => g.blank slot
  | .addNode => .ok { g with nodes := g.nodes.push (some { id := g.nodes.size }) }
  | .addEdge source target action => g.link source target action
  | .renumberEdge slot id => g.mapEdge slot fun e => { e with id }
  | .detachSource slot => do
    let e ← g.edgeAt slot
    let n ← g.endNode e.source
    g.mapEdge slot fun e => { e with source := .stray n }
  | .detachTarget slot id => g.mapEdge slot fun e => { e with target := .stray { id } }
  | .setKind slot kind => g.mapAction slot fun a => { a with kind }
  | .dropPart slot part => g.mapAction slot (·.without part)
  | .renameTarget slot name => do
    let e ← g.edgeAt slot
    if e.action.target.isNone then .error .brokenReference
    g.mapAction slot fun a => { a with target := a.target.map (Access.rename name) }
  | .removeLastEdge => g.unlinkLast

end Graph

end MicroFlow
