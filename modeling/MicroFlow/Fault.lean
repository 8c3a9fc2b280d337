import MicroFlow.Expr.Flat

/-!
# Faults

Graphs, actions and trees can be handed over in a damaged state, and a computation
on them can then break off: a reference leads nowhere, or a value turns up where it
makes no sense.  On programs that were accepted this does not happen.  Each way to
break off is a constructor of `Fault`.
-/

namespace MicroFlow

/-- The ways in which a computation on a damaged graph breaks off. -/
inductive Fault where
  /-- A reference leads nowhere. -/
  | brokenReference
  /-- An operator other than an arithmetic one has to be evaluated on signs. -/
  | notArithmetic (op : Operator)
  /-- An operator other than a relation has to be compared on signs. -/
  | notRelational (symbol : String)
  /-- A definition of a variable that is not declared with its kind. -/
  | undeclaredTarget (a : Access)
  /-- A use of a variable that is not declared with its kind. -/
  | undeclaredVariable (a : Access)
  /-- A leaf that is not a number where a number is needed. -/
  | notNumber (t : Token)
  /-- Two values that were made for different programs. -/
  | foreignValue
  /-- An analysis was started on a program other than its own. -/
  | foreignProgram (analysis : String)
  /-- An edge that leads back to its own node cannot be drawn. -/
  | selfEdge
  /-- Two nodes of one number cannot be drawn. -/
  | nodeCollision (id : Int)
  /-- An analysis was asked to start elsewhere than at its entry. -/
  | entryMismatch (analysis : String) (entry given : Int)
  /-- A loop has not come to its end within the steps that are enough for any graph in order. -/
  | endless
deriving DecidableEq, Repr

/-- What a fault says.  A broken reference and a loop without end say nothing. -/
def Fault.message? : Fault → Option String
  | brokenReference | endless => none
  | notArithmetic op => some ("sign: not an arithmetic operator: " ++ op.symbol)
  | notRelational symbol => some ("sign: not a relational operator: " ++ symbol)
  | undeclaredTarget a => some ("dfg: undeclared target " ++ a.text)
  | undeclaredVariable a => some ("dfg: undeclared variable " ++ a.text)
  | notNumber t => some ("dfg: " ++ t.text ++ " in arithmetic position")
  | foreignValue => some "dfg: mapping belongs to a different program graph"
  | foreignProgram analysis =>
    some ("dfg: " ++ analysis ++ " built for a different program graph")
  | selfEdge => some "simple: adding self edge"
  | nodeCollision id => some ("simple: node ID collision: " ++ toString id)
  | entryMismatch analysis entry given =>
    some ("solver: entry node does not match analysis direction: " ++ analysis ++
      " starts at q" ++ toString entry ++ ", got q" ++ toString given)

end MicroFlow
