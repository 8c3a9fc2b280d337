import MicroFlow.Graph.Traversal

/-!
# Figures of a graph

`stats` counts nodes, edges, guards and declarations.  Loops are the edges that lead
back in the depth-first order, together with the edges from a node to itself.  Loop
nests are the strongly connected components of more than one node: two nodes belong
to one component when each can be reached from the other.
-/

namespace MicroFlow

/-- The figures of a graph. -/
structure Stats where
  nodes : Int := 0
  edges : Int := 0
  guards : Int := 0
  declarations : Int := 0
  loops : Int := 0
  loopNests : Int := 0
  unreachable : Int := 0
  cyclomaticComplexity : Int := 0
deriving DecidableEq, Repr, Inhabited

namespace Graph

/-- The numbers of the nodes that can be reached in one step from the node at a position. -/
def successors (g : Graph) (slot : Nat) : Except Fault (List Nat) := do
  let n ← g.nodeAt slot
  n.out.mapM fun i => do
    let e ← g.edgeAt i
    let w ← g.endNode e.target
    g.slotOf w.id

/-- One round of closing a set under steps, taken from the nodes in order. -/
def spread (steps : List (List Nat)) (s : BitSet) : BitSet :=
  steps.zipIdx.foldl (fun acc (next, i) =>
    if acc.has i then next.foldl (fun acc j => acc.insert j) acc else acc) s

/-- Closes a set under steps, in `rounds` rounds at most. -/
def closure (steps : List (List Nat)) : Nat → BitSet → BitSet
  | 0, s => s
  | rounds + 1, s =>
    let t := spread steps s
    if t == s then s else closure steps rounds t

/-- The nodes that can be reached from each node, that node included. -/
def reachSets (steps : List (List Nat)) : List BitSet :=
  (List.range steps.length).map fun i => closure steps steps.length (BitSet.single i)

/-- The nodes that can be reached from node `i` and from which it can be reached. -/
def component (reach : List BitSet) (i : Nat) : List Nat :=
  (List.range reach.length).filter fun j =>
    (reach[i]?.getD .empty).has j && (reach[j]?.getD .empty).has i

/-- The number of strongly connected components of more than one node. -/
def nestCount (steps : List (List Nat)) : Nat :=
  let reach := reachSets steps
  ((List.range steps.length).filter fun i =>
    let c := component reach i
    c.head? == some i && 1 < c.length).length

/-- An edge leads back: to its own node, or to a node of lower rank. -/
def leadsBack (g : Graph) (ord : NodeOrder) (e : Edge) : Except Fault Bool := do
  let (i, j) ← g.ends e
  if i == j then return true
  let s ← g.slotOf i
  let t ← g.slotOf j
  let r := ord.rank[s]?.getD 0
  return ord.rank[t]?.getD 0 < r && r < ord.reachable

/-- The figures of a graph. -/
def stats (g : Graph) : Except Fault Stats := do
  let steps ← (List.range g.nodes.size).mapM g.successors
  let ord ← g.depthFirst false
  let back ← g.edges.toList.mapM (g.leadsBack ord)
  let count (k : ActionKind) : Nat := g.edges.toList.countP (·.action.kind == k)
  return {
    nodes := g.nodes.size
    edges := g.edges.size
    guards := count .boolean
    declarations := count .declare
    loops := back.countP id
    loopNests := nestCount steps
    unreachable := (g.nodes.size : Int) - ord.reachable
    cyclomaticComplexity := (g.edges.size : Int) - g.nodes.size + 2 }

end Graph

end MicroFlow
