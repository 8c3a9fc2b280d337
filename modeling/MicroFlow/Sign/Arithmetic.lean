import MicroFlow.Expr.Operator
import MicroFlow.Sign.Basic

/-!
# Arithmetic on signs

Each operator has a table on single signs; on sets it collects the table over all
pairs.  Division and remainder truncate towards zero, division by zero gives
`undef`, and `undef` swallows every operation it takes part in.
-/

namespace MicroFlow.Sign

/-- The signs that a sum can have. -/
def add : Sign → Sign → SignSet
  | undef, _ | _, undef => .single undef
  | zero, b => .single b
  | a, zero => .single a
  | a, b => if a = b then .single a else .top

/-- The signs that a difference can have. -/
def sub (a b : Sign) : SignSet := add a b.negate

/-- The signs that a product can have. -/
def mul : Sign → Sign → SignSet
  | undef, _ | _, undef => .single undef
  | zero, _ | _, zero => .single zero
  | a, b => if a = b then .single plus else .single minus

/-- The signs that a truncated quotient can have: small over large is zero. -/
def div : Sign → Sign → SignSet
  | undef, _ | _, undef => .single undef
  | _, zero => .single undef
  | zero, _ => .single zero
  | a, b => (mul a b).union (.single zero)

/-- The signs that a remainder can have: that of the dividend, or zero. -/
def mod : Sign → Sign → SignSet
  | undef, _ | _, undef => .single undef
  | _, zero => .single undef
  | zero, _ => .single zero
  | a, _ => (SignSet.single a).union (.single zero)

/-- The signs that the result of an operator can have. -/
def apply : ArithOp → Sign → Sign → SignSet
  | .add => add
  | .sub => sub
  | .mul => mul
  | .div => div
  | .mod => mod

end MicroFlow.Sign

namespace MicroFlow.SignSet

/-- Collects a table over all pairs of members. -/
def lift (table : Sign → Sign → SignSet) (l r : SignSet) : SignSet :=
  unions (l.signs.flatMap fun a => r.signs.map fun b => table a b)

/-- The signs that an operator can give on members of two sets. -/
def apply (op : ArithOp) (l r : SignSet) : SignSet := lift (Sign.apply op) l r

/-- A sign is in the result exactly when some pair of members can give it. -/
theorem has_apply (op : ArithOp) (l r : SignSet) (x : Sign) :
    (apply op l r).has x = true ↔
      ∃ a b, l.has a = true ∧ r.has b = true ∧ (Sign.apply op a b).has x = true := by
  simp [apply, lift, List.any_flatMap]

end MicroFlow.SignSet
