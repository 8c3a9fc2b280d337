import MicroFlow.Graph.Basic

/-!
# Drawing a graph

`dot` writes a graph in the DOT language: nodes by number, then edges by the numbers
of their ends.  Edges between the same two nodes are drawn as one, with their labels
on separate lines.  An edge from a node to itself cannot be drawn.
-/

namespace MicroFlow

/-- A line between two nodes and the labels it carries. -/
structure DotEdge where
  source : Int
  target : Int
  labels : List String
deriving DecidableEq, Repr

/-- Lines are drawn by the numbers of their ends. -/
def DotEdge.before (a b : DotEdge) : Bool :=
  a.source < b.source || (a.source == b.source && a.target ≤ b.target)

namespace Dot

/-- The words of the DOT language. -/
def keywords : List String := ["node", "edge", "graph", "digraph", "subgraph", "strict"]

/-- The text is a name: letters, digits and underscores, not starting with a digit. -/
def isName (s : String) : Bool :=
  match s.toList with
  | [] => false
  | c :: cs => !c.isDigit && (c :: cs).all fun c => c.isAlphanum || c == '_'

/-- An identifier, quoted unless it is a name and no word of the language. -/
def identifier (s : String) : String :=
  if isName s && !keywords.contains s.toLower then s else Text.quote s

def nodeId (id : Int) : String := identifier ("q" ++ toString id)

/-- Adds a label to the line between two nodes. -/
def addLabel (source target : Int) (label : String) : List DotEdge → List DotEdge
  | [] => [⟨source, target, [label]⟩]
  | e :: rest =>
    if e.source = source ∧ e.target = target then { e with labels := e.labels ++ [label] } :: rest
    else e :: addLabel source target label rest

/-- The first line of a drawing; it may have no name. -/
def head (name : String) : String :=
  "strict digraph " ++ (if name == "" then "" else identifier name ++ " ") ++ "\x7b\n"

/-- The line of a node.  The exit stands out. -/
def nodeLine (n : Node) : String :=
  "  " ++ nodeId n.id ++ " [shape=" ++ (if n.terminal then "doublecircle" else "circle") ++ "];\n"

def edgeLine (e : DotEdge) : String :=
  "  " ++ nodeId e.source ++ " -> " ++ nodeId e.target ++ " [label=" ++
    Text.quote ("\n".intercalate e.labels) ++ "];\n"

/-- The text of a drawing with these nodes and lines. -/
def text (name : String) (nodes : List Node) (lines : List DotEdge) : String :=
  let nodeText := "  // Node definitions.\n" ++ String.join (nodes.map nodeLine)
  let edgeText := if lines.isEmpty then "" else
    "\n  // Edge definitions.\n" ++ String.join (lines.map edgeLine)
  head name ++ nodeText ++ edgeText ++ "\x7d"

end Dot

namespace Graph

/-- The nodes of a drawing, no two of one number; `seen` are the numbers taken. -/
def dotNodes (seen : List Int) : List (Option Node) → Except Fault (List Node)
  | [] => .ok []
  | none :: _ => .error .brokenReference
  | some n :: rest =>
    if seen.contains n.id then .error (.nodeCollision n.id)
    else return n :: (← dotNodes (n.id :: seen) rest)

/-- The lines of a drawing with one more edge. -/
def dotEdge (g : Graph) (lines : List DotEdge) (e : Edge) : Except Fault (List DotEdge) := do
  let (i, j) ← g.ends e
  let source ← g.nodeAt (← g.slotOf i)
  let target ← g.nodeAt (← g.slotOf j)
  match e.action.text? with
  | none => .error .brokenReference
  | some label =>
    if source.id = target.id then .error .selfEdge
    else return Dot.addLabel source.id target.id label lines

/-- The lines of a drawing in the order of their first edge. -/
def dotEdges (g : Graph) : Except Fault (List DotEdge) := g.edges.toList.foldlM g.dotEdge []

/-- The graph in the DOT language, under a name. -/
def dot (g : Graph) (name : String) : Except Fault String := do
  let nodes ← dotNodes [] g.nodes.toList
  let lines ← g.dotEdges
  return Dot.text name (nodes.mergeSort fun a b => a.id ≤ b.id) (lines.mergeSort DotEdge.before)

end Graph

end MicroFlow
