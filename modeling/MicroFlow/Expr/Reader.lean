import MicroFlow.Expr.Flat
import MicroFlow.Text.Quoted

/-!
# Reading written expressions

`read` rebuilds the tree of a token sequence.  The sequence is split at its
weakest operator outside parentheses: the rightmost of several binary ones, so
that they associate to the left, and the leftmost of several prefixed ones.  Both
halves are read in the same way.  A sequence of one operand is a leaf.  The types
of the operands are checked last, on the finished tree.
-/

namespace MicroFlow

/-- What is wrong with an expression. -/
inductive Flaw where
  | empty
  | loneOperator
  | misplaced (op : Operator)
  | noOperand (op : Operator)
  | unbalanced
  | unknownOperator (symbol : String)
  | noOperator
  | noIndex
  | negatedNumber
  | booleanOperand (op : Operator)
  | numberOperand (op : Operator)
  | notArithmetic
  | notBoolean
  | notArithmeticOperator
  | notRelation
  | notConnective
  | noNumber
  | noCondition
deriving DecidableEq, Repr

/-- The flaw in words. -/
def Flaw.reason : Flaw → String
  | empty => "empty expression"
  | loneOperator => "operator without operands"
  | misplaced op => "misplaced " ++ op.symbol
  | noOperand op => "missing operand for " ++ op.symbol
  | unbalanced => "unbalanced parentheses"
  | unknownOperator symbol => "unknown operator " ++ symbol
  | noOperator => "operands without operator"
  | noIndex => "array access without index"
  | negatedNumber => "not applied to an arithmetic operand"
  | booleanOperand op => op.symbol ++ " applied to a boolean operand"
  | numberOperand op => op.symbol ++ " applied to an arithmetic operand"
  | notArithmetic => "not an arithmetic expression"
  | notBoolean => "not a boolean expression"
  | notArithmeticOperator => "not an arithmetic operator"
  | notRelation => "not a relational operator"
  | notConnective => "not a boolean operator"
  | noNumber => "missing arithmetic expression"
  | noCondition => "missing boolean expression"

/-- A text that is no expression, and what is wrong with it. -/
structure MalformedExpr where
  text : String
  flaw : Flaw
deriving DecidableEq, Repr

/-- The message for a malformed expression.  An empty text is not quoted. -/
def MalformedExpr.message (e : MalformedExpr) : String :=
  if e.text == "" then "malformed expression: " ++ e.flaw.reason
  else "malformed expression " ++ Text.quote e.text ++ ": " ++ e.flaw.reason

/-- The types of expressions. -/
inductive Ty where
  | int
  | bool
deriving DecidableEq, Repr

namespace Expr

/-- The type of a tree whose operands all have the type that their operator asks for. -/
def type : Expr → Except Flaw Ty
  | element _ missing _ => .error .noIndex
  | truth _ => .ok .bool
  | node .not _ r => do
    match ← r.type with
    | .int => .error .negatedNumber
    | .bool => .ok .bool
  | node op l r => do
    let lt ← l.type
    let rt ← r.type
    match op with
    | .arith _ => if lt == .bool || rt == .bool then .error (.booleanOperand op) else .ok .int
    | .rel _ => if lt == .bool || rt == .bool then .error (.booleanOperand op) else .ok .bool
    | _ => if lt == .int || rt == .int then .error (.numberOperand op) else .ok .bool
  | _ => .ok .int

end Expr

namespace Token

/-- The sequence starts with an opening parenthesis. -/
def startsOpen : List Token → Bool
  | symbol .opening :: _ => true
  | _ => false

/--
The number of tokens before the one that closes `depth` open parentheses, if it
is there.
-/
def closingAt : Nat → List Token → Option Nat
  | _, [] => none
  | depth, symbol .opening :: rest => (closingAt (depth + 1) rest).map (· + 1)
  | 1, symbol .closing :: _ => some 0
  | depth, symbol .closing :: rest => (closingAt (depth - 1) rest).map (· + 1)
  | depth, _ :: rest => (closingAt depth rest).map (· + 1)

/-- A malformed token sequence. -/
def malformed (tokens : List Token) (flaw : Flaw) : MalformedExpr := ⟨join tokens, flaw⟩

/--
Removes the parentheses that enclose the whole sequence, `fuel` pairs at most.  A
single parenthesis is left alone.
-/
def strip : Nat → List Token → Except MalformedExpr (List Token)
  | 0, tokens => .ok tokens
  | fuel + 1, tokens =>
    if 2 ≤ tokens.length && startsOpen tokens then
      match closingAt 0 tokens with
      | none => .error (malformed tokens .unbalanced)
      | some closing =>
        if closing + 1 == tokens.length then strip fuel (tokens.drop 1).dropLast
        else .ok tokens
    else .ok tokens

/--
Finds the weakest operator outside parentheses in the tokens from position `i` on,
`depth` parentheses being open and `best` being the weakest one before.
-/
def weakest (i depth : Nat) (best : Option (Nat × Operator)) :
    List Token → Except Flaw (Nat × Operator)
  | [] =>
    if depth != 0 then .error .unbalanced
    else match best with
      | some b => .ok b
      | none => .error .noOperator
  | symbol .opening :: rest => weakest (i + 1) (depth + 1) best rest
  | symbol .closing :: rest =>
    if depth == 0 then .error .unbalanced else weakest (i + 1) (depth - 1) best rest
  | symbol (.operator op) :: rest =>
    if depth != 0 then weakest (i + 1) depth best rest
    else if !op.isValid then .error (.unknownOperator op.symbol)
    else
      let weaker := match best with
        | none => true
        | some (_, b) =>
          op.precedence < b.precedence || (op.precedence == b.precedence && !op.isUnary)
      weakest (i + 1) depth (if weaker then some (i, op) else best) rest
  | _ :: rest => weakest (i + 1) depth best rest

/-- What the reader does with a sequence, before it reads any part of it. -/
inductive Plan where
  | refuse (err : MalformedExpr)
  | accept (e : Expr)
  | negate (operand : List Token)
  | combine (op : Operator) (left right : List Token)

/-- Does what is planned, where `again` reads the parts. -/
def Plan.carryOut (again : List Token → Except MalformedExpr Expr) :
    Plan → Except MalformedExpr Expr
  | refuse err => .error err
  | accept e => .ok e
  | negate operand => do return (← again operand).negation
  | combine op left right => do return .node op (← again left) (← again right)

/-- What to do when `inner` is left of a sequence without the parentheses around it. -/
def planBare (tokens : List Token) : List Token → Plan
  | [] => .refuse (malformed tokens .empty)
  | [t] => if t.isOperand then .accept (.leaf t) else .refuse (malformed tokens .loneOperator)
  | inner =>
    match weakest 0 0 none inner with
    | .error flaw => .refuse (malformed inner flaw)
    | .ok (split, op) =>
      if op.isUnary then
        if split != 0 then .refuse (malformed tokens (.misplaced op)) else .negate (inner.drop 1)
      else if split == 0 || split + 1 == inner.length then
        .refuse (malformed tokens (.noOperand op))
      else .combine op (inner.take split) (inner.drop (split + 1))

/-- What to do with a sequence. -/
def plan (tokens : List Token) : Plan :=
  match strip tokens.length tokens with
  | .error err => .refuse err
  | .ok inner => planBare tokens inner

/-- Reads a tree without regard to types.  Each step down takes one unit of `fuel`. -/
def readTree : Nat → List Token → Except MalformedExpr Expr
  | 0, tokens => .error (malformed tokens .empty)
  | fuel + 1, tokens => (plan tokens).carryOut (readTree fuel)

end Token

namespace Expr

/-- Reads a well-typed tree from a token sequence. -/
def read (tokens : List Token) : Except MalformedExpr Expr := do
  let e ← Token.readTree (tokens.length + 1) tokens
  match e.type with
  | .error flaw => .error (Token.malformed tokens flaw)
  | .ok _ => .ok e

/-- Reads an arithmetic expression. -/
def readArithmetic (tokens : List Token) : Except MalformedExpr Expr := do
  let e ← read tokens
  if e.isArithmetic then .ok e else .error (Token.malformed tokens .notArithmetic)

def readCondition (tokens : List Token) : Except MalformedExpr Expr := do
  let e ← read tokens
  if e.isBoolean then .ok e else .error (Token.malformed tokens .notBoolean)

end Expr

namespace Access

/-- An array access whose index is given as it is written. -/
def elementOf (name : String) (index : List Token) : Except MalformedExpr Access := do
  let e ← Expr.readArithmetic index
  return .element name e (some (index.map Token.mark))

end Access

end MicroFlow
