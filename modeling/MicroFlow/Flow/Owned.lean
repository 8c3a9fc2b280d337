import MicroFlow.Flow.Analysis

/-!
# Values of several programs

A value belongs to the program that it was made for.  Values of different programs
cannot be merged or compared, and an analysis cannot start on a program other than
its own.
-/

namespace MicroFlow

/-- A value and the program that it was made for. -/
structure Owned (M : Type) where
  program : Nat
  mapping : M
deriving Repr

namespace Analysis

variable {M : Type} (a : Analysis M)

/-- Joins two values of one program. -/
def joinOwned : Option (Owned M) → Option (Owned M) → Except Fault (Option (Owned M))
  | none, y => .ok y
  | some x, none => .ok (some x)
  | some x, some y =>
    if x.program = y.program then .ok (some ⟨x.program, a.merge x.mapping y.mapping⟩)
    else .error .foreignValue

/-- Compares two values of one program. -/
def leqOwned : Option (Owned M) → Option (Owned M) → Except Fault Bool
  | none, _ => .ok true
  | some _, none => .ok false
  | some x, some y =>
    if x.program = y.program then .ok (a.included x.mapping y.mapping) else .error .foreignValue

/-- The value behind an edge. -/
def applyOwned (x : Option (Owned M)) (e : Edge) : Except Fault (Option (Owned M)) :=
  match x with
  | none => .ok none
  | some x => do return some ⟨x.program, ← a.transfer x.mapping e⟩

/-- What the analysis is about, in words. -/
def subject : String := String.ofList (a.name.toList.map fun c => if c == '-' then ' ' else c)

/-- The initial value of an analysis that was made for one program, on another. -/
def initialOn (own program : Nat) : Except Fault (Option (Owned M)) :=
  if own = program then .ok (some ⟨program, a.initial⟩) else .error (.foreignProgram a.subject)

end Analysis

end MicroFlow
