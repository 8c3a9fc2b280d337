import MicroFlow.BitSet
import MicroFlow.Flow.Analysis

/-!
# Reaching definitions

For every variable, the edges whose definition of it can still hold at a node.  An
assignment to a scalar replaces every earlier definition; one to an array element or
a record field is added to them.

Sites are numbered: site 0 is the value that the variable has on entry, site `i + 1`
is edge `i`.
-/

namespace MicroFlow

/-- For every variable by position, the sites that can have defined it. -/
abbrev Definitions := List BitSet

namespace Definitions

/-- The site of the value on entry. -/
def entrySite : Nat := 0

def siteOf (edge : Int) : Except Fault Nat :=
  if edge < -1 then .error .brokenReference else .ok (edge + 1).toNat

/-- Every variable has the value that it has on entry. -/
def initial (vars : Variables) : Definitions := vars.map fun _ => BitSet.single entrySite

/-- What an edge does to the definitions. -/
def transfer (vars : Variables) (m : Definitions) (e : Edge) : Except Fault Definitions :=
  match e.action.defines with
  | none => .ok m
  | some target =>
    match vars.of target with
    | none => .error (.undeclaredTarget target)
    | some i => do
      let site ← siteOf e.id
      let kept (s : BitSet) : BitSet := if target.kind = .scalar then .empty else s
      return m.modify i fun s => (kept s).insert site

def merge (a b : Definitions) : Definitions := List.zipWith BitSet.union a b

def included (a b : Definitions) : Bool := (List.zipWith BitSet.subset a b).all id

/-- The definitions of the variable at a position. -/
def setAt (m : Definitions) (i : Nat) : BitSet := m[i]?.getD .empty

/-- The edges that define a variable in increasing order, and whether its value on entry can
hold. -/
def sites (vars : Variables) (m : Definitions) (name : String) : List Nat × Bool :=
  match vars.findIdx? (·.name == name) with
  | none => ([], false)
  | some i =>
    let s := m.setAt i
    (s.members.filterMap fun b => if b = entrySite then none else some (b - 1), s.has entrySite)

/-- How a site is written. -/
def siteText (g : Graph) (site : Nat) : Except Fault String :=
  if site = entrySite then .ok "?"
  else do
    let (i, j) ← g.ends (← g.edgeAt (site - 1))
    return "q" ++ toString i ++ "->q" ++ toString j

/-- How the definitions of one variable are written. -/
def setText (g : Graph) (s : BitSet) : Except Fault String := do
  return "\x7b" ++ ", ".intercalate (← s.members.mapM (siteText g)) ++ "\x7d"

/-- The definitions of every variable in words. -/
def bindings (g : Graph) (m : Definitions) : Except Fault (List Binding) :=
  g.vars.zipIdx.mapM fun (d, i) => do
    return { name := d.name, value := ← setText g (m.setAt i) }

end Definitions

def reachingDefinitions (g : Graph) : Analysis Definitions where
  name := "reaching-definitions"
  reverse := false
  initial := Definitions.initial g.vars
  transfer := Definitions.transfer g.vars
  merge := Definitions.merge
  included := Definitions.included
  height := 1 + g.vars.length * (g.edges.size + 1)
  bindings := Definitions.bindings g

end MicroFlow
