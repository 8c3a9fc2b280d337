import MicroFlow.BitSet
import MicroFlow.Graph.Basic

/-!
# Depth-first order

`depthFirst` walks a graph from the entry along outgoing edges, or from the exit
along incoming edges, and lists the nodes in reverse postorder: a node comes before
the nodes that were finished while it was being explored.  Sibling edges are taken
in order, so the result is unique.  Nodes that the walk does not reach follow in the
order of their numbers.
-/

namespace MicroFlow

/-- A depth-first numbering of the nodes. -/
structure NodeOrder where
  /-- The place of every node in `order`. -/
  rank : Array Nat
  /-- The nodes by increasing rank. -/
  order : List Nat
  /-- The edges of the spanning tree in the order of their discovery. -/
  treeEdges : List Int
  /-- The number of nodes that the walk reached. -/
  reachable : Nat
deriving DecidableEq, Repr, Inhabited

/-- The state of a walk. -/
structure Walk where
  seen : BitSet := .empty
  /-- Finished nodes, the last one first. -/
  finished : List Nat := []
  /-- Tree edges, the last one first. -/
  tree : List Int := []
deriving DecidableEq, Repr, Inhabited

namespace Graph

/-- The edges that a walk can take from a node. -/
def adjacent (reverse : Bool) (n : Node) : List Nat := if reverse then n.into else n.out

/-- The end that a walk gets to when it takes an edge. -/
def across (reverse : Bool) (e : Edge) : Endpoint := if reverse then e.source else e.target

/-- Takes an edge of the node that is being explored: a node that is new is entered and explored. -/
def takeEdge (g : Graph) (reverse : Bool) (explore : Node → Walk → Except Fault Walk) (walk : Walk)
    (i : Nat) : Except Fault Walk := do
  let e ← g.edgeAt i
  let w ← g.endNode (across reverse e)
  let slot ← g.slotOf w.id
  if walk.seen.has slot then return walk
  else explore w { walk with seen := walk.seen.insert slot, tree := e.id :: walk.tree }

/--
Explores everything that can be reached from a node that has just been seen, and
finishes the node.  Each step down takes one unit of `fuel`; as many units as there
are nodes are enough, because every step down sees a new node.
-/
def explore (g : Graph) (reverse : Bool) : Nat → Node → Walk → Except Fault Walk
  | 0, _, _ => .error .endless
  | fuel + 1, v, walk => do
    let walk ← (adjacent reverse v).foldlM (g.takeEdge reverse (explore g reverse fuel)) walk
    return { walk with finished := v.id.toNat :: walk.finished }

/-- The walk from the start of the given direction; in a graph without nodes it sees nothing. -/
def walk (g : Graph) (reverse : Bool) : Except Fault Walk :=
  if g.nodes.isEmpty then .ok {}
  else do
    let root ← g.start reverse
    let slot ← g.slotOf root.id
    g.explore reverse g.nodes.size root { seen := BitSet.single slot }

/-- The depth-first numbering of a graph. -/
def depthFirst (g : Graph) (reverse : Bool) : Except Fault NodeOrder := do
  let walk ← g.walk reverse
  let ids := List.range g.nodes.size
  let order := walk.finished ++ ids.filter fun i => !walk.seen.has i
  return {
    rank := (ids.map fun i => order.idxOf i).toArray
    order := order
    treeEdges := walk.tree.reverse
    reachable := walk.finished.length }

end Graph

end MicroFlow
