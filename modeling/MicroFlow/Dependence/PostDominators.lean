import MicroFlow.Graph.Traversal

/-!
# Post-dominators

A node post-dominates another when every path from the other to the exit passes
through it.  The sets are found by narrowing: every set starts with all nodes, and a
node keeps, besides itself, what all its successors have in common, until nothing
changes.  Nodes are visited in the depth-first order of the reversed graph, so that
successors come first.
-/

namespace MicroFlow

/-- For every node, the nodes that post-dominate it. -/
abbrev DominatorSets := Array BitSet

namespace Graph

/-- The set of a node number. -/
def dominatorsAt (sets : DominatorSets) (id : Int) : Except Fault BitSet :=
  if 0 ≤ id then
    match sets[id.toNat]? with
    | some s => .ok s
    | none => .error .brokenReference
  else .error .brokenReference

/-- What the targets of edges have in common with a set. -/
def commonWith (g : Graph) (sets : DominatorSets) (s : BitSet) : List Nat → Except Fault BitSet
  | [] => .ok s
  | i :: rest => do
    let e ← g.edgeAt i
    let n ← g.endNode e.target
    g.commonWith sets (s.inter (← dominatorsAt sets n.id)) rest

/-- What the targets of a nonempty list of edges have in common. -/
def common (g : Graph) (sets : DominatorSets) (first : Nat) (rest : List Nat) :
    Except Fault BitSet := do
  let e ← g.edgeAt first
  let n ← g.endNode e.target
  g.commonWith sets (← dominatorsAt sets n.id) rest

/-- One visit of each node in order; tells whether a set has changed. -/
def narrowSets (g : Graph) (exit : Nat) (sets : DominatorSets) (changed : Bool) :
    List Nat → Except Fault (DominatorSets × Bool)
  | [] => .ok (sets, changed)
  | id :: rest =>
    if id = exit then g.narrowSets exit sets changed rest
    else do
      let n ← g.nodeAt id
      match n.out with
      | [] => g.narrowSets exit sets changed rest
      | first :: others =>
        let next := (← g.common sets first others).insert id
        if next = (sets[id]?).getD .empty then g.narrowSets exit sets changed rest
        else g.narrowSets exit (sets.setIfInBounds id next) true rest

/-- Visits all nodes until nothing changes; every round of `fuel` but the last removes a member. -/
def narrowRounds (g : Graph) (exit : Nat) (order : List Nat) :
    Nat → DominatorSets → Except Fault DominatorSets
  | 0, _ => .error .endless
  | fuel + 1, sets => do
    let (sets, changed) ← g.narrowSets exit sets false order
    if changed then g.narrowRounds exit order fuel sets else return sets

/-- For every node, the nodes on every path from it to the exit, itself included. -/
def postDominators (g : Graph) : Except Fault DominatorSets := do
  let n := g.nodes.size
  let exit ← g.slotOf (← g.exitNode).id
  let sets := (Array.replicate n (BitSet.below n)).setIfInBounds exit (.single exit)
  let order := (← g.depthFirst true).order
  g.narrowRounds exit order (n * n + 1) sets

end Graph

end MicroFlow
