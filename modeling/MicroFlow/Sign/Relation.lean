import MicroFlow.Expr.Operator
import MicroFlow.Sign.Basic

/-!
# Relations between signs

`compare` gives the truth values that a relation can take between members of two
sets, `narrow` keeps the members that take part in a pair for which it can hold.
Pairs with `undef` take no truth value.
-/

namespace MicroFlow

/-- The truth values that a comparison can take. -/
structure Outcome where
  canBeTrue : Bool := false
  canBeFalse : Bool := false
deriving DecidableEq, Repr, Inhabited

namespace Outcome

/-- No truth value. -/
def never : Outcome := {}

/-- Both truth values. -/
def either : Outcome := ⟨true, true⟩

/-- Only true. -/
def always : Outcome := ⟨true, false⟩

/-- Only false. -/
def neverTrue : Outcome := ⟨false, true⟩

/-- The truth values of the negation. -/
def invert (o : Outcome) : Outcome := ⟨o.canBeFalse, o.canBeTrue⟩

def union (o p : Outcome) : Outcome := ⟨o.canBeTrue || p.canBeTrue, o.canBeFalse || p.canBeFalse⟩

/-- The number of an outcome: true is 1, false is 2. -/
def toNat (o : Outcome) : Nat := o.canBeTrue.toNat + 2 * o.canBeFalse.toNat

end Outcome

namespace Sign

/-- The truth values that `m > n` takes on integers of the given signs. -/
def greater : Sign → Sign → Outcome
  | undef, _ | _, undef => .never
  | zero, zero => .neverTrue
  | minus, minus | plus, plus => .either
  | plus, _ | zero, minus => .always
  | _, _ => .neverTrue

/-- The truth values that `m == n` takes on integers of the given signs. -/
def equal : Sign → Sign → Outcome
  | undef, _ | _, undef => .never
  | zero, zero => .always
  | minus, minus | plus, plus => .either
  | _, _ => .neverTrue

/-- The truth values that a relation takes on integers of the given signs. -/
def relate : RelOp → Sign → Sign → Outcome
  | .gt, a, b => greater a b
  | .lt, a, b => greater b a
  | .ge, a, b => (greater b a).invert
  | .le, a, b => (greater a b).invert
  | .eq, a, b => equal a b
  | .ne, a, b => (equal a b).invert

end Sign

namespace SignSet

/-- All pairs of integer signs from two sets. -/
def pairs (l r : SignSet) : List (Sign × Sign) :=
  l.defined.signs.flatMap fun a => r.defined.signs.map fun b => (a, b)

/-- The truth values that a relation can take between members of two sets. -/
def compare (op : RelOp) (l r : SignSet) : Outcome :=
  ((pairs l r).map fun p => Sign.relate op p.1 p.2).foldr Outcome.union .never

/-- The members that take part in a pair for which the relation can hold. -/
def narrow (op : RelOp) (l r : SignSet) : SignSet × SignSet :=
  let kept := (pairs l r).filter fun p => (Sign.relate op p.1 p.2).canBeTrue
  (unions (kept.map fun p => .single p.1), unions (kept.map fun p => .single p.2))

end SignSet

end MicroFlow
