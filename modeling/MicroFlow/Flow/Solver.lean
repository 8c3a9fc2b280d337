import MicroFlow.Flow.Analysis
import MicroFlow.Flow.Frontier

/-!
# Solvers

A solver looks for the least values that hold at every node.  It starts from the
mapping of the analysis at the entry, with every other node undefined, and joins the
value behind an edge into the node it leads to until nothing grows.

* `chaotic` evaluates all edges in order, pass after pass, until a pass changes
  nothing.  It counts evaluated edges.
* `worklist` takes one waiting node at a time and evaluates the edges that leave it.
  Nodes whose value grows wait again.  It counts the nodes taken.

A value grows at most `height` times, which bounds the number of passes and of nodes
taken; that bound is the fuel of the loops.  A loop that uses it up breaks off.
-/

namespace MicroFlow

/-- A value for every node. -/
abbrev Values (M : Type) := Array (Option M)

/-- What a solver found, and the number of steps it took. -/
structure Solution (M : Type) where
  values : Values M
  steps : Nat
deriving DecidableEq, Repr

namespace Analysis

variable {M : Type} (a : Analysis M) (g : Graph)

/-- The value of the node with a number. -/
def valueAt (values : Values M) (id : Int) : Except Fault (Nat × Option M) :=
  if 0 ≤ id ∧ id < values.size then .ok (id.toNat, (values[id.toNat]?).join)
  else .error .brokenReference

/-- The node that an edge leads to and the new values, if its value has grown. -/
def update (values : Values M) (e : Edge) : Except Fault (Option (Nat × Values M)) := do
  let origin ← g.endNode (a.origin e)
  let goal ← g.endNode (a.goal e)
  let (_, x) ← valueAt values origin.id
  let v ← a.apply x e
  let (i, y) ← valueAt values goal.id
  if a.leq v y then return none
  else return some (i, values.setIfInBounds i (a.join y v))

/-- The values at the start, and the position of the start. -/
def start (expected : Option Nat) : Except Fault (Values M × Nat) := do
  let entry ← g.start a.reverse
  match expected with
  | some slot =>
    let given ← g.nodeAt slot
    if given ≠ entry then .error (.entryMismatch a.name entry.id given.id)
  | none => pure ()
  let slot ← g.slotOf entry.id
  let values := (Array.replicate g.nodes.size none).setIfInBounds slot (some a.initial)
  return (values, slot)

/-- A bound on the number of times that values can grow. -/
def growth : Nat := g.nodes.size * a.height + 1

/-! ## Chaotic iteration -/

/-- Evaluates edges in order; tells whether a value has grown. -/
def pass (values : Values M) (changed : Bool) : List Edge → Except Fault (Values M × Bool)
  | [] => .ok (values, changed)
  | e :: rest => do
    match ← a.update g values e with
    | some (_, grown) => pass grown true rest
    | none => pass values changed rest

/-- Passes over all edges until one changes nothing. -/
def passes : Nat → Values M → Nat → Except Fault (Solution M)
  | 0, _, _ => .error .endless
  | fuel + 1, values, steps => do
    let (values, changed) ← a.pass g values false g.edges.toList
    let steps := steps + g.edges.size
    if changed then passes fuel values steps else return { values, steps }

/-- Chaotic iteration.  `expected` is a node that the analysis is asked to start from. -/
def chaotic (expected : Option Nat) : Except Fault (Solution M) := do
  let (values, _) ← a.start g expected
  a.passes g (a.growth g) values 0

/-! ## Worklists -/

/-- Evaluates the edges that leave a node; nodes that grow wait again. -/
def propagate (values : Values M) (f : Frontier) : List Nat → Except Fault (Values M × Frontier)
  | [] => .ok (values, f)
  | i :: rest => do
    let e ← g.edgeAt i
    match ← a.update g values e with
    | some (goal, grown) => propagate grown (f.push goal) rest
    | none => propagate values f rest

/-- Processes waiting nodes until none is left. -/
def drain : Nat → Values M → Frontier → Nat → Except Fault (Solution M)
  | 0, _, _, _ => .error .endless
  | fuel + 1, values, f, steps =>
    match f.pop? with
    | none => .ok { values, steps }
    | some (id, f) => do
      let n ← g.nodeAt id
      let (values, f) ← a.propagate g values f (a.leaving n)
      drain fuel values f (steps + 1)

/-- Worklist iteration.  `expected` is a node that the analysis is asked to start from. -/
def worklist (s : Strategy) (expected : Option Nat) : Except Fault (Solution M) := do
  let f ← Frontier.ofStrategy s g a.reverse
  let (values, slot) ← a.start g expected
  a.drain g (a.growth g + 1) values (f.push slot) 0

end Analysis

end MicroFlow
