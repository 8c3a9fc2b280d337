import MicroFlow.Graph.Traversal

/-!
# Frontiers

A frontier is the set of nodes that wait to be processed.  A node that waits already
is not added again.  The strategy says which node comes next:

* `fifo`: the one that has been waiting longest;
* `lifo`: the one that came last;
* `roundRobin`: nodes are processed in passes.  A pass takes all nodes that wait when
  it starts, in depth-first order; nodes that come later wait for the next pass.
-/

namespace MicroFlow

/-- Which waiting node comes next. -/
inductive Strategy where
  | fifo
  | lifo
  | roundRobin
deriving DecidableEq, Repr, Inhabited

namespace Strategy

def all : List Strategy := [fifo, lifo, roundRobin]

def name : Strategy → String
  | fifo => "fifo"
  | lifo => "lifo"
  | roundRobin => "round-robin"

def ofName? (s : String) : Option Strategy := all.find? (·.name == s)

/-- The message for a name that no strategy has. -/
def unknownText (s : String) : String := "unknown worklist strategy " ++ Text.quote s

end Strategy

/-- The waiting nodes in the order that the strategy keeps. -/
inductive Waiting where
  /-- The node that has been waiting longest comes first. -/
  | queue (items : List Nat)
  /-- The node that came last comes first. -/
  | stack (items : List Nat)
  /-- The rest of the current pass by rank, then the nodes for the next one. -/
  | passes (rank : Array Nat) (current next : List Nat)
deriving DecidableEq, Repr, Inhabited

namespace Waiting

/-- All waiting nodes. -/
def toList : Waiting → List Nat
  | queue items => items
  | stack items => items
  | passes _ current next => current ++ next

/-- Adds a node. -/
def add (id : Nat) : Waiting → Waiting
  | queue items => queue (items ++ [id])
  | stack items => stack (id :: items)
  | passes rank current next => passes rank current (next ++ [id])

/-- Nodes in the order of their ranks. -/
def byRank (rank : Array Nat) (items : List Nat) : List Nat :=
  items.mergeSort fun i j => rank[i]?.getD 0 ≤ rank[j]?.getD 0

/-- Takes the next node. -/
def take? : Waiting → Option (Nat × Waiting)
  | queue [] => none
  | queue (id :: items) => some (id, queue items)
  | stack [] => none
  | stack (id :: items) => some (id, stack items)
  | passes rank (id :: current) next => some (id, passes rank current next)
  | passes rank [] next =>
    match byRank rank next with
    | [] => none
    | id :: current => some (id, passes rank current [])

end Waiting

/-- The nodes that wait, and the order in which they do. -/
structure Frontier where
  waiting : Waiting
  /-- The waiting nodes as a set. -/
  pending : BitSet := .empty
deriving DecidableEq, Repr, Inhabited

namespace Frontier

/-- Adds a node that does not wait yet. -/
def push (f : Frontier) (id : Nat) : Frontier :=
  if f.pending.has id then f
  else { waiting := f.waiting.add id, pending := f.pending.insert id }

/-- Takes the next node, if one waits. -/
def pop? (f : Frontier) : Option (Nat × Frontier) :=
  match f.waiting.take? with
  | none => none
  | some (id, waiting) => some (id, { waiting, pending := f.pending.erase id })

/-- The empty frontier for a graph, walked in the given direction. -/
def ofStrategy (s : Strategy) (g : Graph) (reverse : Bool) : Except Fault Frontier :=
  match s with
  | .fifo => .ok { waiting := .queue [] }
  | .lifo => .ok { waiting := .stack [] }
  | .roundRobin => do return { waiting := .passes (← g.depthFirst reverse).rank [] [] }

end Frontier

end MicroFlow
