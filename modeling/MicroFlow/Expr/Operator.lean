/-!
# Operators

The operators of microC come in three families: arithmetic on integers, relations
between integers, and the connectives on truth values.  A token sequence can also
carry an operator that belongs to no family; it is kept with its spelling and has
no binding strength.

The binding strengths are, from weak to strong: `|`, `&`, `not`, relations,
`+` and `-`, and last `*`, `/` and `%`.
-/

namespace MicroFlow

inductive ArithOp where
  | add | sub | mul | div | mod
deriving DecidableEq, Repr, Inhabited

/-- Relations between integers. -/
inductive RelOp where
  | lt | gt | le | ge | eq | ne
deriving DecidableEq, Repr, Inhabited

/-- The operators of expressions. -/
inductive Operator where
  | arith (op : ArithOp)
  | rel (op : RelOp)
  | and
  | or
  | not
  /-- An operator of no family, with its spelling. -/
  | unknown (symbol : String)
deriving DecidableEq, Repr, Inhabited

namespace ArithOp

/-- How an arithmetic operator is written. -/
def symbol : ArithOp → String
  | add => "+"
  | sub => "-"
  | mul => "*"
  | div => "/"
  | mod => "%"

end ArithOp

namespace RelOp

/-- How a relation is written. -/
def symbol : RelOp → String
  | lt => "<"
  | gt => ">"
  | le => "<="
  | ge => ">="
  | eq => "=="
  | ne => "!="

/-- The relation that holds exactly when the given one does not. -/
def negated : RelOp → RelOp
  | lt => ge
  | gt => le
  | le => gt
  | ge => lt
  | eq => ne
  | ne => eq

/-- The relation with its operands swapped: `a < b` is `b > a`. -/
def flipped : RelOp → RelOp
  | lt => gt
  | gt => lt
  | le => ge
  | ge => le
  | eq => eq
  | ne => ne

/-- The truth of a relation between two integers. -/
def holds : RelOp → Int → Int → Bool
  | lt, m, n => m < n
  | gt, m, n => n < m
  | le, m, n => m ≤ n
  | ge, m, n => n ≤ m
  | eq, m, n => m == n
  | ne, m, n => m != n

@[simp] theorem negated_negated (op : RelOp) : op.negated.negated = op := by cases op <;> rfl

@[simp] theorem flipped_flipped (op : RelOp) : op.flipped.flipped = op := by cases op <;> rfl

/-- Negating a relation negates its truth. -/
theorem holds_negated (op : RelOp) (m n : Int) : op.negated.holds m n = !op.holds m n := by
  cases op <;> simp only [negated, holds] <;> grind

/-- Flipping a relation swaps its operands. -/
theorem holds_flipped (op : RelOp) (m n : Int) : op.flipped.holds m n = op.holds n m := by
  cases op <;> simp only [flipped, holds] <;> grind

end RelOp

namespace Operator

/-- How an operator is written. -/
def symbol : Operator → String
  | arith op => op.symbol
  | rel op => op.symbol
  | and => "&"
  | or => "|"
  | not => "not"
  | unknown s => s

/-- The operator written as `s`. -/
def ofSymbol : String → Operator
  | "+" => arith .add
  | "-" => arith .sub
  | "*" => arith .mul
  | "/" => arith .div
  | "%" => arith .mod
  | "<" => rel .lt
  | ">" => rel .gt
  | "<=" => rel .le
  | ">=" => rel .ge
  | "==" => rel .eq
  | "!=" => rel .ne
  | "&" => and
  | "|" => or
  | "not" => not
  | s => unknown s

/-- Binding strength, weakest first; 0 for an operator of no family. -/
def precedence : Operator → Nat
  | or => 1
  | and => 2
  | not => 3
  | rel _ => 4
  | arith .add | arith .sub => 5
  | arith _ => 6
  | unknown _ => 0

/-- The operator belongs to one of the families. -/
def isValid (op : Operator) : Bool := 0 < op.precedence

def isArithmetic : Operator → Bool
  | arith _ => true
  | _ => false

def isRelational : Operator → Bool
  | rel _ => true
  | _ => false

/-- The operator combines truth values. -/
def isBoolean : Operator → Bool
  | and | or | not => true
  | _ => false

/-- The operator stands before its only operand. -/
def isUnary : Operator → Bool
  | not => true
  | _ => false

/-- The relation that holds exactly when the given one does not. -/
def negated? : Operator → Option Operator
  | rel op => some (rel op.negated)
  | _ => none

/-- The relation with its operands swapped. -/
def flipped? : Operator → Option Operator
  | rel op => some (rel op.flipped)
  | _ => none

/-- The spelling of an operator determines it, unless it is of no family. -/
theorem ofSymbol_symbol {op : Operator} (h : op.isValid = true) : ofSymbol op.symbol = op := by
  cases op with
  | arith op => cases op <;> rfl
  | rel op => cases op <;> rfl
  | and | or | not => rfl
  | unknown s => simp [isValid, precedence] at h

end Operator

end MicroFlow
