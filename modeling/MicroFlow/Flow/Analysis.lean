import MicroFlow.Graph.Basic

/-!
# Data-flow analyses

A data-flow analysis computes a mapping for every node of a program graph.  It says
which mapping holds where it starts, how an edge changes a mapping, how two mappings
are merged and when one is included in another.  It runs along the edges or against
them.

Where nothing is known yet the value is undefined: `none`, the least value.  A
transfer breaks off with a fault when the action of the edge makes no sense in the
program.
-/

namespace MicroFlow

/-- What a mapping says about one variable, in words. -/
structure Binding where
  name : String
  value : String
deriving DecidableEq, Repr, Inhabited

/-- A data-flow analysis over mappings of type `M`. -/
structure Analysis (M : Type) where
  name : String
  /-- The analysis runs against the edges. -/
  reverse : Bool
  /-- The mapping where the analysis starts. -/
  initial : M
  /-- The mapping behind an edge, in the direction of the analysis. -/
  transfer : M → Edge → Except Fault M
  /-- The least mapping that includes two. -/
  merge : M → M → M
  included : M → M → Bool
  /-- A bound on how often a value can grow. -/
  height : Nat
  /-- The mapping describes a state that can occur. -/
  reachable : M → Bool := fun _ => true
  /-- What a mapping says about each variable. -/
  bindings : M → Except Fault (List Binding)

namespace Analysis

variable {M : Type} (a : Analysis M)

/-- Joins two values; the undefined value changes nothing. -/
def join : Option M → Option M → Option M
  | none, y => y
  | some x, none => some x
  | some x, some y => some (a.merge x y)

/-- The order of values; the undefined value is the least. -/
def leq : Option M → Option M → Bool
  | none, _ => true
  | some _, none => false
  | some x, some y => a.included x y

/-- The value behind an edge; the undefined value stays undefined. -/
def apply (x : Option M) (e : Edge) : Except Fault (Option M) :=
  match x with
  | none => .ok none
  | some m => do return some (← a.transfer m e)

/-- The end of an edge that the analysis reads. -/
def origin (e : Edge) : Endpoint := if a.reverse then e.target else e.source

/-- The end of an edge that the analysis updates. -/
def goal (e : Edge) : Endpoint := if a.reverse then e.source else e.target

/-- The edges along which the analysis leaves a node. -/
def leaving (n : Node) : List Nat := if a.reverse then n.into else n.out

@[simp] theorem join_none_left (y : Option M) : a.join none y = y := rfl

@[simp] theorem join_none_right (x : Option M) : a.join x none = x := by cases x <;> rfl

@[simp] theorem leq_none (y : Option M) : a.leq none y = true := by cases y <;> rfl

end Analysis

end MicroFlow
