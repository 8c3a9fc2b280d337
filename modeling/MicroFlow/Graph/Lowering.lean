import MicroFlow.Expr.Reader
import MicroFlow.Graph.Validity
import MicroFlow.Source.Tree

/-!
# From program trees to program graphs

`build` turns a program tree into a graph in three steps that do not depend on each
other.

* `checkProgram` checks the program: every name is declared once and before its use, with
  the kind of the use; arrays have a positive length; blocks are not empty; nothing
  is missing or unknown.  The first violation in reading order is the error.
* `lowerProgram` lays the program out as arrows between points.  Points are numbered in the
  order in which they come up, from the entry point 0.  A block that has to end at a
  given point ends there; a loop ends its body at its own head.
* `findings` lists what is allowed but suspicious: constant conditions, literal
  indices out of bounds and variables that are never used.
-/

namespace MicroFlow

open Source

/-- Why a program tree has no graph. -/
inductive BuildError where
  | undeclared (pos : Pos) (name : String) (kind : Kind)
  | selector (pos : Pos) (name field : String)
  | arrayLength (pos : Pos) (name : String) (length : Int)
  | duplicate (pos : Pos) (name : String)
  | emptyBlock (pos : Pos)
  | declarationKind (pos : Pos) (kind : String)
  | accessKind (pos : Pos) (kind : String)
  /-- An item that is neither a declaration nor a statement; `none` is an absent one. -/
  | item (form : Option ExprForm)
  | missingStatement
  | expression (error : MalformedExpr)
  /-- The target of an assignment or read is absent. -/
  | missingTarget
  | graph (error : GraphError)
deriving DecidableEq, Repr

/-- The message for a program tree that has no graph. -/
def BuildError.message? : BuildError → Option String
  | undeclared pos name kind =>
    let tail := "undeclared " ++ kind.name ++ " " ++ Text.quote name
    some (if 0 < pos.line then pos.text ++ ": " ++ tail else tail)
  | selector pos name field =>
    some (pos.text ++ ": invalid selector " ++ Text.quote field ++ " on record " ++ Text.quote name)
  | arrayLength pos name length =>
    some (pos.text ++ ": " ++ name ++ "[" ++ toString length ++ "]: array length must be positive")
  | duplicate pos name => some (pos.text ++ ": " ++ name ++ ": variable already declared")
  | emptyBlock pos => some (pos.text ++ ": empty block")
  | declarationKind pos kind => some (pos.text ++ ": unknown declaration kind " ++ Text.quote kind)
  | accessKind pos kind => some (pos.text ++ ": unknown access kind " ++ Text.quote kind)
  | item form => some ("unsupported program item " ++
      (match form with
        | some f => f.typeName
        | none => "<nil>"))
  | missingStatement => some "unsupported statement <nil>"
  | expression error => some error.message
  | missingTarget => none
  | graph error => error.message?.map ("validating program graph: " ++ ·)

/-! ## Expressions -/

namespace Source

/-- The access that a place stands for. -/
def accessOf (shape : Shape) (name : String) (index : Expr) (field : String) : Access :=
  match shape with
  | .scalar => .scalar name
  | .array => .element name index none
  | .record => .field name ((Selector.ofName? field).getD .none)
  | .unknown _ => .odd name

namespace Arith

/-- The tree of an arithmetic expression. -/
def lower : Arith → Expr
  | missing => .missing
  | num _ n => .literal n
  | access _ shape name index field => (accessOf shape name index.lower field).toExpr
  | binary _ op l r => .node op l.lower r.lower

/-- The accesses of an expression with their places, the index before the array. -/
def places : Arith → List (Pos × Access)
  | missing => []
  | num _ _ => []
  | access pos shape name index field =>
    (match shape with
      | .array => index.places
      | _ => []) ++ [(pos, accessOf shape name index.lower field)]
  | binary _ _ l r => l.places ++ r.places

/-- Checks an arithmetic expression against the declared variables. -/
def check (vars : Variables) : Arith → Except BuildError Unit
  | missing => .error (.expression ⟨"", .noNumber⟩)
  | num _ _ => .ok ()
  | access pos shape name index field => do
    match shape with
    | .array => index.check vars
    | .record =>
      if (Selector.ofName? field).isNone then .error (.selector pos name field)
    | .scalar => pure ()
    | .unknown kind => .error (.accessKind pos kind)
    let a := accessOf shape name index.lower field
    if (vars.of a).isNone then .error (.undeclared pos a.name a.kind)
  | binary _ op l r => do
    if !op.isArithmetic then .error (.expression ⟨op.symbol, .notArithmeticOperator⟩)
    l.check vars
    r.check vars

end Arith

namespace Cond

/-- The tree of a condition. -/
def lower : Cond → Expr
  | missing => .missing
  | truth _ b => .truth b
  | rel _ op l r => .node op l.lower r.lower
  | logic _ op l r => .node op l.lower r.lower
  | not _ x => x.lower.negation

/-- The accesses of a condition with their places. -/
def places : Cond → List (Pos × Access)
  | missing => []
  | truth _ _ => []
  | rel _ _ l r => l.places ++ r.places
  | logic _ _ l r => l.places ++ r.places
  | not _ x => x.places

/-- Checks a condition against the declared variables. -/
def check (vars : Variables) : Cond → Except BuildError Unit
  | missing => .error (.expression ⟨"", .noCondition⟩)
  | truth _ _ => .ok ()
  | rel _ op l r => do
    if !op.isRelational then .error (.expression ⟨op.symbol, .notRelation⟩)
    l.check vars
    r.check vars
  | logic _ op l r => do
    if op != .and && op != .or then .error (.expression ⟨op.symbol, .notConnective⟩)
    l.check vars
    r.check vars
  | not _ x => x.check vars

end Cond

namespace Place

/-- The access that a target stands for. -/
def lower (p : Place) : Access := accessOf p.shape p.name p.index.lower p.field

end Place

/-! ## Checking -/

/-- Checks a target against the declared variables. -/
def checkTarget (vars : Variables) : Option Place → Except BuildError Unit
  | none => .error .missingTarget
  | some p => p.toArith.check vars

mutual

/-- Checks a statement against the declared variables. -/
def Stmt.check (vars : Variables) : Stmt → Except BuildError Unit
  | .missing => .error .missingStatement
  | .assign _ target value => do
    checkTarget vars target
    value.check vars
  | .read _ target => checkTarget vars target
  | .write _ value => value.check vars
  | .ifThen pos cond body => do
    cond.check vars
    checkBody vars pos body
  | .ifElse pos cond body other => do
    cond.check vars
    checkBody vars pos body
    checkBody vars pos other
  | .loop pos cond body => do
    cond.check vars
    checkBody vars pos body

/-- Checks the body of a statement at a place: it may not be empty. -/
def checkBody (vars : Variables) (pos : Pos) : Block → Except BuildError Unit
  | .nil => .error (.emptyBlock pos)
  | .cons s b => do
    s.check vars
    Block.check vars b

/-- Checks the statements of a block. -/
def Block.check (vars : Variables) : Block → Except BuildError Unit
  | .nil => .ok ()
  | .cons s b => do
    s.check vars
    Block.check vars b

end

/-- The variable that a declaration introduces. -/
def declarationOf (shape : Shape) (name : String) (length : Int) : Declaration :=
  match shape with
  | .array => { name, kind := .array, length }
  | .record => { name, kind := .record }
  | _ => { name, kind := .scalar }

/-- Checks an item and adds what it declares to the variables. -/
def Item.check (vars : Variables) : Item → Except BuildError Variables
  | .declare pos shape name length => do
    match shape with
    | .array => if length ≤ 0 then .error (.arrayLength pos name length)
    | .unknown kind => .error (.declarationKind pos kind)
    | _ => pure ()
    if vars.any (·.name == name) then .error (.duplicate pos name)
    return vars ++ [declarationOf shape name length]
  | .stmt .missing => .error (.item none)
  | .stmt s => do
    s.check vars
    return vars
  | .expression form => .error (.item (some form))
  | .missing => .error (.item none)

/-- Checks a program and collects its variables. -/
def checkProgram (vars : Variables) : Program → Except BuildError Variables
  | [] => .ok vars
  | i :: rest => do
    let vars ← i.check vars
    checkProgram vars rest

end Source

/-! ## Laying out arrows -/

/-- An edge before it has a position: two points and an action. -/
structure Arrow where
  source : Nat
  target : Nat
  action : Action
deriving DecidableEq, Repr, Inhabited

/-- A part of a program laid out: its arrows, the point where it ends, and the next free point. -/
structure Layed where
  arrows : List Arrow
  finish : Nat
  next : Nat
deriving DecidableEq, Repr, Inhabited

namespace Source

/-- A single arrow to a given point, or to the next free one. -/
def single (source : Nat) (to? : Option Nat) (next : Nat) (action : Action) : Layed :=
  match to? with
  | some finish => ⟨[⟨source, finish, action⟩], finish, next⟩
  | none => ⟨[⟨source, next, action⟩], next, next + 1⟩

/-- The action of an assignment whose target may be absent. -/
def assignment (target : Option Place) (value : Arith) : Action :=
  { kind := .assign, target := target.map Place.lower, value := value.lower }

mutual

/--
Lays out a statement from the point `source`.  It ends at `to?` when that is given,
and otherwise at a new point; `next` is the next free point.
-/
def Stmt.lower (source : Nat) (to? : Option Nat) (next : Nat) : Stmt → Layed
  | .missing => ⟨[], source, next⟩
  | .assign _ target value => single source to? next (assignment target value)
  | .read _ target => single source to? next { kind := .read, target := target.map Place.lower }
  | .write _ value => single source to? next (.write value.lower)
  | .ifThen _ cond body =>
    let c := cond.lower
    let inner := Block.lower next to? (next + 1) body
    ⟨⟨source, next, .branch c⟩ :: inner.arrows ++ [⟨source, inner.finish, .branch c.negation⟩],
      inner.finish, inner.next⟩
  | .ifElse _ cond body other =>
    let c := cond.lower
    let first := Block.lower next to? (next + 2) body
    let second := Block.lower (next + 1) (some first.finish) first.next other
    ⟨⟨source, next, .branch c⟩ :: ⟨source, next + 1, .branch c.negation⟩ ::
        (first.arrows ++ second.arrows),
      first.finish, second.next⟩
  | .loop _ cond body =>
    let c := cond.lower
    let inner := Block.lower next (some source) (next + 1) body
    let last := single source to? inner.next (.branch c.negation)
    ⟨⟨source, next, .branch c⟩ :: inner.arrows ++ last.arrows, last.finish, last.next⟩

/-- Lays out a block.  Its last statement ends at `to?`, the others at new points. -/
def Block.lower (source : Nat) (to? : Option Nat) (next : Nat) : Block → Layed
  | .nil => ⟨[], source, next⟩
  | .cons s .nil => s.lower source to? next
  | .cons s b =>
    let first := s.lower source none next
    let rest := Block.lower first.finish to? first.next b
    ⟨first.arrows ++ rest.arrows, rest.finish, rest.next⟩

end

/-- Lays out an item. -/
def Item.lower (source next : Nat) : Item → Layed
  | .declare _ shape name length =>
    single source none next (.declare (declarationOf shape name length))
  | .stmt s => s.lower source none next
  | _ => ⟨[], source, next⟩

/-- Lays out a program. -/
def lowerProgram (source next : Nat) : Program → Layed
  | [] => ⟨[], source, next⟩
  | i :: rest =>
    let first := i.lower source next
    let tail := lowerProgram first.finish first.next rest
    ⟨first.arrows ++ tail.arrows, tail.finish, tail.next⟩

end Source

/-- The positions of the arrows that satisfy a test, in order. -/
def Arrow.positions (p : Arrow → Bool) (arrows : List Arrow) : List Nat :=
  (arrows.zipIdx.filter fun (a, _) => p a).map (·.2)

/-- The graph with the given number of points and arrows, ending at a point. -/
def Graph.ofArrows (points : Nat) (arrows : List Arrow) (finish : Nat) (vars : Variables) :
    Graph where
  nodes := ((List.range points).map fun i =>
    some { id := i, terminal := i == finish,
           out := Arrow.positions (·.source == i) arrows,
           into := Arrow.positions (·.target == i) arrows }).toArray
  edges := (arrows.zipIdx.map fun (a, i) =>
    { id := i, source := .listed a.source, target := .listed a.target, action := a.action }).toArray
  vars := vars
  exit := .listed finish

/-! ## Findings -/

/-- Something allowed but suspicious in a program. -/
inductive Finding where
  | constantCondition (pos : Pos) (value : Bool)
  | outOfBounds (pos : Pos) (index : Int) (name : String) (length : Int)
  | unused (pos : Pos) (kind : Kind) (name : String)
deriving DecidableEq, Repr

namespace Finding

def pos : Finding → Pos
  | constantCondition p _ => p
  | outOfBounds p _ _ _ => p
  | unused p _ _ => p

/-- A finding is a warning, or for unused variables an information. -/
def severity : Finding → String
  | unused _ _ _ => "info"
  | _ => "warning"

def message : Finding → String
  | constantCondition _ b => "condition is always " ++ (if b then "true" else "false")
  | outOfBounds _ i x n =>
    "index " ++ toString i ++ " out of bounds for " ++ x ++ " of length " ++ toString n
  | unused _ k x => k.name ++ " " ++ x ++ " is declared but never used"

/-- How a finding is written. -/
def text (f : Finding) : String := f.pos.text ++ ": " ++ f.severity ++ ": " ++ f.message

end Finding

namespace Source

/-- The finding for an array access with a literal index out of bounds. -/
def boundsFinding? (vars : Variables) : Pos × Access → Option Finding
  | (pos, .element x (.literal i) _) =>
    match vars.find? (·.name == x) with
    | some d => if i < 0 ∨ d.length ≤ i then some (.outOfBounds pos i x d.length) else none
    | none => none
  | _ => none

/-- The finding for a condition that is a truth value. -/
def constantFinding? (pos : Pos) : Cond → Option Finding
  | .truth _ b => some (.constantCondition pos b)
  | _ => none

def boundsFindings (vars : Variables) (as : List (Pos × Access)) : List Finding :=
  as.filterMap (boundsFinding? vars)

def targetPlaces : Option Place → List (Pos × Access)
  | some p => p.toArith.places
  | none => []

mutual

/-- The accesses of a statement with their places, in reading order. -/
def Stmt.places : Stmt → List (Pos × Access)
  | .missing => []
  | .assign _ target value => targetPlaces target ++ value.places
  | .read _ target => targetPlaces target
  | .write _ value => value.places
  | .ifThen _ cond body => cond.places ++ body.places
  | .ifElse _ cond body other => cond.places ++ body.places ++ other.places
  | .loop _ cond body => cond.places ++ body.places

/-- The accesses of a block with their places. -/
def Block.places : Block → List (Pos × Access)
  | .nil => []
  | .cons s b => s.places ++ b.places

end

mutual

/-- The warnings for a statement in reading order. -/
def Stmt.warnings (vars : Variables) : Stmt → List Finding
  | .missing => []
  | .assign _ target value => boundsFindings vars (targetPlaces target ++ value.places)
  | .read _ target => boundsFindings vars (targetPlaces target)
  | .write _ value => boundsFindings vars value.places
  | .ifThen pos cond body =>
    boundsFindings vars cond.places ++ (constantFinding? pos cond).toList ++ body.warnings vars
  | .ifElse pos cond body other =>
    boundsFindings vars cond.places ++ (constantFinding? pos cond).toList ++
      body.warnings vars ++ other.warnings vars
  | .loop pos cond body =>
    boundsFindings vars cond.places ++ (constantFinding? pos cond).toList ++ body.warnings vars

def Block.warnings (vars : Variables) : Block → List Finding
  | .nil => []
  | .cons s b => s.warnings vars ++ b.warnings vars

end

/-- The accesses of a program with their places. -/
def programPlaces : Program → List (Pos × Access)
  | [] => []
  | .stmt s :: rest => s.places ++ programPlaces rest
  | _ :: rest => programPlaces rest

def programWarnings (vars : Variables) : Program → List Finding
  | [] => []
  | .stmt s :: rest => s.warnings vars ++ programWarnings vars rest
  | _ :: rest => programWarnings vars rest

/-- The variables that no access names, with the places of their declarations. -/
def unusedFindings (used : List String) : Program → List Finding
  | [] => []
  | .declare pos shape name length :: rest =>
    let d := declarationOf shape name length
    (if used.contains name then [] else [.unused pos d.kind name]) ++ unusedFindings used rest
  | _ :: rest => unusedFindings used rest

/-- The findings for a program: warnings in reading order, then the unused variables. -/
def findings (vars : Variables) (p : Program) : List Finding :=
  programWarnings vars p ++ unusedFindings ((programPlaces p).map (·.2.name)) p

end Source

/-! ## Building -/

/-- A graph and the findings made on the way to it. -/
structure Built where
  graph : Graph
  findings : List Finding
deriving DecidableEq, Repr

/-- The graph of a program whose variables are known. -/
def Graph.ofProgram (vars : Variables) (p : Program) : Graph :=
  let layed := lowerProgram 0 1 p
  .ofArrows layed.next layed.arrows layed.finish vars

/-- Turns a program tree into a graph. -/
def build (p : Program) : Except BuildError Built := do
  let vars ← checkProgram [] p
  let g := Graph.ofProgram vars p
  match g.validate with
  | .error e => .error (.graph e)
  | .ok () => return ⟨g, findings vars p⟩

end MicroFlow
