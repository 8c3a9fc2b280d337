import MicroFlow.Expr.Basic
import MicroFlow.Source.Position

/-!
# Program trees

A microC program is a list of declarations and statements.  Blocks hold statements
only.  Every part carries the place where it stands in the source.

Trees are also handed over from outside: then expressions, statements and targets
can be absent, operators and shapes can be unknown, and an item can be an
expression.  Such trees are refused when they are turned into a graph.
-/

namespace MicroFlow.Source

/-- The shape of a declared or accessed variable. -/
inductive Shape where
  | scalar
  | array
  | record
  | unknown (name : String)
deriving DecidableEq, Repr, Inhabited

namespace Shape

def name : Shape → String
  | scalar => "variable"
  | array => "array"
  | record => "record"
  | unknown s => s

def ofName : String → Shape
  | "variable" => scalar
  | "array" => array
  | "record" => record
  | s => unknown s

end Shape

/-- Arithmetic expressions. -/
inductive Arith where
  | missing
  | num (pos : Pos) (value : Int)
  | access (pos : Pos) (shape : Shape) (name : String) (index : Arith) (field : String)
  | binary (pos : Pos) (op : Operator) (left right : Arith)
deriving DecidableEq, Repr, Inhabited

/-- Conditions. -/
inductive Cond where
  | missing
  | truth (pos : Pos) (value : Bool)
  | rel (pos : Pos) (op : Operator) (left right : Arith)
  | logic (pos : Pos) (op : Operator) (left right : Cond)
  | not (pos : Pos) (operand : Cond)
deriving DecidableEq, Repr, Inhabited

/-- The target of an assignment or of a read. -/
structure Place where
  pos : Pos
  shape : Shape
  name : String
  index : Arith
  field : String
deriving DecidableEq, Repr, Inhabited

/-- A target as an expression. -/
def Place.toArith (p : Place) : Arith := .access p.pos p.shape p.name p.index p.field

mutual

/-- Statements. -/
inductive Stmt where
  | missing
  | assign (pos : Pos) (target : Option Place) (value : Arith)
  | read (pos : Pos) (target : Option Place)
  | write (pos : Pos) (value : Arith)
  | ifThen (pos : Pos) (cond : Cond) (body : Block)
  | ifElse (pos : Pos) (cond : Cond) (body other : Block)
  | loop (pos : Pos) (cond : Cond) (body : Block)

/-- Statements in sequence. -/
inductive Block where
  | nil
  | cons (head : Stmt) (tail : Block)

end

deriving instance DecidableEq for Stmt, Block
deriving instance Repr for Stmt, Block
deriving instance Inhabited for Stmt, Block

namespace Block

/-- The statements of a block in order. -/
def toList : Block → List Stmt
  | nil => []
  | cons s b => s :: b.toList

/-- A block of the given statements. -/
def ofList : List Stmt → Block
  | [] => nil
  | s :: rest => cons s (ofList rest)

def isEmpty : Block → Bool
  | nil => true
  | cons _ _ => false

end Block

/-- The forms of expressions. -/
inductive ExprForm where
  | num | access | arith | bool | rel | logic | not
deriving DecidableEq, Repr

/-- What the form of an expression is called in messages. -/
def ExprForm.typeName : ExprForm → String
  | num => "*syntax.Num"
  | access => "*syntax.Access"
  | arith => "*syntax.Arith"
  | bool => "*syntax.Bool"
  | rel => "*syntax.Rel"
  | logic => "*syntax.Logic"
  | not => "*syntax.Not"

/-- The parts of a program. -/
inductive Item where
  | declare (pos : Pos) (shape : Shape) (name : String) (length : Int)
  | stmt (s : Stmt)
  /-- An expression that stands where an item should. -/
  | expression (form : ExprForm)
  | missing
deriving DecidableEq, Repr, Inhabited

/-- A program: its declarations and statements in order. -/
abbrev Program := List Item

end MicroFlow.Source
