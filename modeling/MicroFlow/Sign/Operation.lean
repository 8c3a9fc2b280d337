import MicroFlow.Fault
import MicroFlow.Sign.Arithmetic
import MicroFlow.Sign.Relation

/-!
# Operators of any family on sets of signs

An expression tree can carry any operator.  Arithmetic is refused for operators that
are not arithmetic; a comparison is refused for operators that are no relation, but
only when there is a pair of signs to compare.
-/

namespace MicroFlow.SignSet

/-- Evaluates an operator on two sets. -/
def evaluate (op : Operator) (l r : SignSet) : Except Fault SignSet :=
  match op with
  | .arith o => .ok (apply o l r)
  | _ => .error (.notArithmetic op)

/-- The truth values that an operator can take between members of two sets. -/
def compareBy (op : Operator) (l r : SignSet) : Except Fault Outcome :=
  match op with
  | .rel o => .ok (compare o l r)
  | _ => if (pairs l r).isEmpty then .ok .never else .error (.notRelational op.symbol)

/-- The members that take part in a pair for which the operator can hold. -/
def narrowBy (op : Operator) (l r : SignSet) : Except Fault (SignSet × SignSet) :=
  match op with
  | .rel o => .ok (narrow o l r)
  | _ => if (pairs l r).isEmpty then .ok (empty, empty) else .error (.notRelational op.symbol)

end MicroFlow.SignSet
