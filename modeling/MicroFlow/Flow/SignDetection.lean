import MicroFlow.Flow.Analysis
import MicroFlow.Sign.Operation
import MicroFlow.Sign.Text

/-!
# Sign detection

The signs that each variable can have at a node.  A scalar has one slot, an array has
one slot for all its elements, a record has one slot per field.  Assignments to
scalars and fields replace a slot; those to array elements add to it.  A guard keeps
the signs with which it can hold; when there are none, the state behind it is
unreachable.  An unreachable state has every slot empty.
-/

namespace MicroFlow

/-- The signs of all slots. -/
structure Signs where
  slots : List SignSet
  unreachable : Bool := false
deriving DecidableEq, Repr, Inhabited

namespace Signs

/-! ## Slots -/

/-- The number of slots of a variable. -/
def width (d : Declaration) : Nat := if d.kind = .record then 2 else 1

/-- The first slot of the variable at a position. -/
def firstSlot (vars : Variables) (i : Nat) : Nat := ((vars.take i).map width).foldr (· + ·) 0

/-- The number of slots of all variables. -/
def slotCount (vars : Variables) : Nat := (vars.map width).foldr (· + ·) 0

/-- The slot that an access refers to. -/
def slotOf (vars : Variables) (a : Access) : Except Fault Nat :=
  match vars.of a with
  | none => .error (.undeclaredVariable a)
  | some i => .ok (firstSlot vars i + if a.selector = .snd then 1 else 0)

def slot (m : Signs) (i : Nat) : SignSet := m.slots[i]?.getD .empty

def of (vars : Variables) (m : Signs) (a : Access) : Except Fault SignSet := do
  return m.slot (← slotOf vars a)

/-- The slots of a variable with the names they go by. -/
def slotNames (d : Declaration) : List String :=
  if d.kind = .record then [d.name ++ ".fst", d.name ++ ".snd"] else [d.name]

/-- The signs of the slot that goes by a name. -/
def lookup? (vars : Variables) (m : Signs) (name : String) : Option SignSet :=
  ((vars.flatMap slotNames).findIdx? (· == name)).map m.slot

/-! ## The lattice -/

/-- Every sign of an integer in every slot. -/
def initial (vars : Variables) : Signs where
  slots := List.replicate (slotCount vars) .top

/-- The unreachable state with as many slots. -/
def bottom (m : Signs) : Signs where
  slots := m.slots.map fun _ => .empty
  unreachable := true

def merge (a b : Signs) : Signs :=
  if a.unreachable then b
  else if b.unreachable then a
  else { slots := List.zipWith SignSet.union a.slots b.slots }

def included (a b : Signs) : Bool :=
  a.unreachable || (!b.unreachable && (List.zipWith SignSet.subset a.slots b.slots).all id)

/-- The states that both describe; unreachable when a slot is left empty. -/
def meet (a b : Signs) : Signs :=
  if a.unreachable then a
  else if b.unreachable then b
  else
    let slots := List.zipWith SignSet.inter a.slots b.slots
    if slots.any SignSet.isEmpty then a.bottom else { slots }

/-! ## Expressions -/

/-- The signs of an arithmetic expression. -/
def eval (vars : Variables) (m : Signs) : Expr → Except Fault SignSet
  | .missing => .error .brokenReference
  | .literal n => .ok (.single (.of n))
  | .scalar x => m.of vars (.scalar x)
  | .element x i l => m.of vars (.element x i l)
  | .field x s => m.of vars (.field x s)
  | .odd x => m.of vars (.odd x)
  | .truth b => .error (.notNumber (.truth b))
  | .symbol s => .error (.notNumber (.symbol s))
  | .node (.unknown "") _ _ => .error .brokenReference
  | .node op l r => do
    let a ← m.eval vars l
    let b ← m.eval vars r
    a.evaluate op b

/-- Replaces the signs of a slot, or adds to them when the target is an array element. -/
def store (vars : Variables) (m : Signs) (target : Access) (v : SignSet) : Except Fault Signs := do
  let i ← slotOf vars target
  return { m with slots := m.slots.modify i fun s => if target.kind = .array then s.union v else v }

/-- The access of an operand whose slot holds exactly its value: a scalar or a field. -/
def narrowable? (e : Expr) : Option Access :=
  match e.access? with
  | some a => if a.kind = .array then none else some a
  | none => none

/-- Keeps the given signs of an operand, if its slot holds exactly its value. -/
def restrict (vars : Variables) (m : Signs) (e : Expr) (keep : SignSet) : Except Fault Signs :=
  match narrowable? e with
  | none => .ok m
  | some a => do
    let i ← slotOf vars a
    let kept := (m.slot i).inter keep
    return if kept.isEmpty then m.bottom else { m with slots := m.slots.set i kept }

def relationOf (op : Operator) (negated : Bool) : Operator :=
  if negated then (op.negated?).getD (.unknown "") else op

/-- Keeps the states in which a relation can hold. -/
def narrowRelation (vars : Variables) (m : Signs) (op : Operator) (l r : Expr) :
    Except Fault Signs := do
  let (keepL, keepR) ← (← m.eval vars l).narrowBy op (← m.eval vars r)
  if keepL.isEmpty then return m.bottom
  let left ← m.restrict vars l keepL
  if left.unreachable then return left
  left.restrict vars r keepR

/--
Keeps the states in which a guard can hold, or in which its negation can hold.
Negations are pushed down to the relations.
-/
def narrow (vars : Variables) (m : Signs) (negated : Bool) : Expr → Except Fault Signs
  | .missing => .error .brokenReference
  | .truth b => .ok (if b != negated then m else m.bottom)
  | .node .not _ r => m.narrow vars (!negated) r
  | .node .and l r => do
    let a ← m.narrow vars negated l
    let b ← m.narrow vars negated r
    return if negated then a.merge b else a.meet b
  | .node .or l r => do
    let a ← m.narrow vars negated l
    let b ← m.narrow vars negated r
    return if negated then a.meet b else a.merge b
  | .node (.unknown "") _ _ => .error .brokenReference
  | .node op l r => m.narrowRelation vars (relationOf op negated) l r
  | _ => .ok (if negated then m else m.bottom)

/-- What an edge does to the signs. -/
def transfer (vars : Variables) (m : Signs) (e : Edge) : Except Fault Signs :=
  if m.unreachable then .ok m
  else
    match e.action.kind with
    | .assign => do
      let v ← m.eval vars e.action.value
      match e.action.target with
      | some target => m.store vars target v
      | none => .error .brokenReference
    | .read =>
      match e.action.target with
      | some target => m.store vars target .top
      | none => .error .brokenReference
    | .boolean => m.narrow vars false e.action.guard
    | _ => .ok m

/-- The signs of every slot in words. -/
def bindings (vars : Variables) (m : Signs) : List Binding :=
  (vars.flatMap slotNames).zipIdx.map fun (name, i) => { name, value := (m.slot i).text }

end Signs

def signDetection (g : Graph) : Analysis Signs where
  name := "sign-detection"
  reverse := false
  initial := Signs.initial g.vars
  transfer := Signs.transfer g.vars
  merge := Signs.merge
  included := Signs.included
  height := 2 + 4 * Signs.slotCount g.vars
  reachable := fun m => !m.unreachable
  bindings := fun m => .ok (Signs.bindings g.vars m)

end MicroFlow
