import MicroFlow.BitSet
import MicroFlow.Flow.Analysis

/-!
# Live variables

A variable is live at a node when its value can be read later, before it is
overwritten.  The analysis runs against the edges, from the exit, where nothing is
read any more.  Only an assignment to a scalar overwrites: writing one element or one
field leaves the others.
-/

namespace MicroFlow

/-- The live variables by position. -/
abbrev LiveSet := BitSet

namespace LiveSet

/-- The position of the variable that an access refers to. -/
def indexOf (vars : Variables) (a : Access) : Except Fault Nat :=
  match vars.of a with
  | some i => .ok i
  | none => .error (.undeclaredVariable a)

/-- The variables that stay live across the definition that an action makes. -/
def kill (vars : Variables) (target : Option Access) (m : LiveSet) : Except Fault LiveSet :=
  match target with
  | some (.scalar x) => do return m.erase (← indexOf vars (.scalar x))
  | _ => .ok m

/-- What an edge does to the live variables. -/
def transfer (vars : Variables) (m : LiveSet) (e : Edge) : Except Fault LiveSet := do
  let kept ← kill vars e.action.defines m
  e.action.uses.foldlM (fun s use => do return s.insert (← indexOf vars use)) kept

def isLive (vars : Variables) (m : LiveSet) (name : String) : Bool :=
  match vars.findIdx? (·.name == name) with
  | some i => m.has i
  | none => false

/-- The names of the live variables in the order of their declaration. -/
def names (vars : Variables) (m : LiveSet) : List String :=
  m.members.filterMap fun i => vars[i]?.map Declaration.name

/-- Whether each variable is live, in words. -/
def bindings (vars : Variables) (m : LiveSet) : List Binding :=
  vars.zipIdx.map fun (d, i) => { name := d.name, value := if m.has i then "live" else "dead" }

end LiveSet

def liveVariables (g : Graph) : Analysis LiveSet where
  name := "live-variables"
  reverse := true
  initial := .empty
  transfer := LiveSet.transfer g.vars
  merge := BitSet.union
  included := BitSet.subset
  height := 1 + g.vars.length
  bindings := fun m => .ok (LiveSet.bindings g.vars m)

end MicroFlow
