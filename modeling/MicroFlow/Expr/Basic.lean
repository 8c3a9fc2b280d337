import MicroFlow.Expr.Operator

/-!
# Expressions

An expression of the program graph is a tree: operators inside, literals, truth
values and variable accesses at the leaves.  A variable is a scalar, an array or a
record with the two fields `fst` and `snd`.

Trees are also handed over from outside and may then be damaged.  A part that is
absent is `missing`; a leaf can be a token that is no operand; an access can be of
no known kind.  `complete` says that nothing is missing.

The index of an array access remembers how it was written.  Parentheses that are
not needed do not change the tree, so they are kept beside it as a `Layout`.
-/

namespace MicroFlow

/-- The shape of a variable. -/
inductive Kind where
  | scalar
  | array
  | record
  | unknown
deriving DecidableEq, Repr, Inhabited

/-- What a kind of variable is called. -/
def Kind.name : Kind → String
  | .scalar => "variable"
  | .array => "array"
  | .record => "record"
  | .unknown => "unknown"

/-- The field picked by a record access. -/
inductive Selector where
  | none
  | fst
  | snd
deriving DecidableEq, Repr, Inhabited

namespace Selector

/-- How a selector is written. -/
def name : Selector → String
  | none => ""
  | fst => "fst"
  | snd => "snd"

/-- The selector written as `s`. -/
def ofName? : String → Option Selector
  | "fst" => some fst
  | "snd" => some snd
  | _ => Option.none

end Selector

/-- A declared variable.  The length matters for arrays only. -/
structure Declaration where
  name : String
  kind : Kind
  length : Int := 0
deriving DecidableEq, Repr, Inhabited

/-- How a declaration is written, without the closing semicolon. -/
def Declaration.text (d : Declaration) : String :=
  match d.kind with
  | .array => "int[" ++ toString d.length ++ "] " ++ d.name
  | .record => "\x7bint fst; int snd\x7d " ++ d.name
  | _ => "int " ++ d.name

/-- A token that is not an operand. -/
inductive Symbol where
  | operator (op : Operator)
  | opening
  | closing
  /-- A token of no known kind. -/
  | unknown
deriving DecidableEq, Repr, Inhabited

/-- One place in a written expression: a parenthesis, or the next token that is none. -/
inductive Mark where
  | opening
  | closing
  | token
deriving DecidableEq, Repr, Inhabited

/--
Where the parentheses of a written expression stand.  `none` is the layout with
the fewest parentheses.
-/
abbrev Layout := Option (List Mark)

/-- Expression trees.  The operator `not` keeps its operand on the right. -/
inductive Expr where
  | missing
  | literal (value : Int)
  | truth (value : Bool)
  | scalar (name : String)
  | element (name : String) (index : Expr) (layout : Layout)
  | field (name : String) (selector : Selector)
  /-- An access of no known kind. -/
  | odd (name : String)
  /-- A leaf that is not an operand. -/
  | symbol (s : Symbol)
  | node (op : Operator) (left right : Expr)
deriving DecidableEq, Repr, Inhabited

/-- A use of a variable. -/
inductive Access where
  | scalar (name : String)
  | element (name : String) (index : Expr) (layout : Layout)
  | field (name : String) (selector : Selector)
  /-- An access of no known kind. -/
  | odd (name : String)
deriving DecidableEq, Repr, Inhabited

/-- The elements of a written expression. -/
inductive Token where
  | literal (value : Int)
  | truth (value : Bool)
  | access (a : Access)
  | symbol (s : Symbol)
deriving DecidableEq, Repr, Inhabited

namespace Access

/-- The name of the accessed variable. -/
def name : Access → String
  | scalar x => x
  | element x _ _ => x
  | field x _ => x
  | odd x => x

/-- The kind of variable that the access expects. -/
def kind : Access → Kind
  | scalar _ => .scalar
  | element _ _ _ => .array
  | field _ _ => .record
  | odd _ => .unknown

/-- The field picked by the access. -/
def selector : Access → Selector
  | field _ s => s
  | _ => .none

/-- The index expression of an array access. -/
def index : Access → Expr
  | element _ i _ => i
  | _ => .missing

/-- The same access to a variable of another name. -/
def rename (y : String) : Access → Access
  | scalar _ => scalar y
  | element _ i l => element y i l
  | field _ s => field y s
  | odd _ => odd y

/-- The tree that consists of the access alone. -/
def toExpr : Access → Expr
  | scalar x => .scalar x
  | element x i l => .element x i l
  | field x s => .field x s
  | odd x => .odd x

end Access

namespace Expr

/-- The tree that consists of one token. -/
def leaf : Token → Expr
  | .literal n => literal n
  | .truth b => truth b
  | .access a => a.toExpr
  | .symbol s => symbol s

/-- The token that a leaf consists of. -/
def token? : Expr → Option Token
  | literal n => some (.literal n)
  | truth b => some (.truth b)
  | scalar x => some (.access (.scalar x))
  | element x i l => some (.access (.element x i l))
  | field x s => some (.access (.field x s))
  | odd x => some (.access (.odd x))
  | symbol s => some (.symbol s)
  | missing => none
  | node _ _ _ => none

/-- The access that a leaf consists of. -/
def access? : Expr → Option Access
  | scalar x => some (.scalar x)
  | element x i l => some (.element x i l)
  | field x s => some (.field x s)
  | odd x => some (.odd x)
  | _ => none

@[simp] theorem token?_leaf (t : Token) : (leaf t).token? = some t := by
  cases t with
  | access a => cases a <;> rfl
  | literal | truth | symbol => rfl

/-- The negation of a condition. -/
def negation (e : Expr) : Expr := node .not missing e

/-- The tree is a single token. -/
def isLeaf (e : Expr) : Bool := e.token?.isSome

/-- The tree evaluates to an integer, by the look of its root. -/
def isArithmetic : Expr → Bool
  | literal _ | scalar _ | element _ _ _ | field _ _ | odd _ => true
  | node op _ _ => op.isArithmetic
  | _ => false

/-- The tree evaluates to a truth value, by the look of its root. -/
def isBoolean : Expr → Bool
  | truth _ => true
  | node op _ _ => op.isRelational || op.isBoolean
  | _ => false

/-- No operand is missing.  Nothing is said about indices, which may be absent. -/
def complete : Expr → Bool
  | missing => false
  | node .not _ r => r.complete
  | node (.unknown "") _ _ => false
  | node _ l r => l.complete && r.complete
  | _ => true

/--
The variables touched by the tree, from left to right.  An array access gives the
array, followed by the variables of its index.
-/
def accesses : Expr → List Access
  | scalar x => [.scalar x]
  | element x i l => .element x i l :: i.accesses
  | field x s => [.field x s]
  | odd x => [.odd x]
  | node _ l r => l.accesses ++ r.accesses
  | _ => []

/-- Equality of trees up to the layout of indices. -/
def equal : Expr → Expr → Bool
  | missing, missing => true
  | literal m, literal n => m == n
  | truth a, truth b => a == b
  | scalar x, scalar y => x == y
  | element x i _, element y j _ => x == y && i.equal j
  | field x s, field y t => x == y && s == t
  | odd x, odd y => x == y
  | symbol s, symbol t => s == t
  | node o l r, node p l' r' => o == p && l.equal l' && r.equal r'
  | _, _ => false

/-- The two guards of a branch on a condition: the condition and its negation. -/
def guards (condition : Expr) : Expr × Expr := (condition, condition.negation)

end Expr

end MicroFlow
