import MicroFlow.Expr.Flat
import MicroFlow.Text.Quoted

/-!
# Actions

An edge of a program graph is labelled with an action: an assignment, a read, a
write, a branch guard or a declaration.  The kind of an action says which of its
parts count.  The parts are kept side by side, because an action can be handed over
with parts that its kind does not ask for, or without parts that it does.
-/

namespace MicroFlow

inductive ActionKind where
  | assign
  | read
  | write
  /-- A branch guard. -/
  | boolean
  | declare
  | unknown (name : String)
deriving DecidableEq, Repr, Inhabited

namespace ActionKind

def name : ActionKind → String
  | assign => "assign"
  | read => "read"
  | write => "write"
  | boolean => "boolean"
  | declare => "declare"
  | unknown s => s

def ofName : String → ActionKind
  | "assign" => assign
  | "read" => read
  | "write" => write
  | "boolean" => boolean
  | "declare" => declare
  | s => unknown s

end ActionKind

/-- The parts that an action can have. -/
inductive ActionPart where
  | target | value | guard | declaration
deriving DecidableEq, Repr

def ActionPart.name : ActionPart → String
  | target => "target"
  | value => "value"
  | guard => "guard"
  | declaration => "declaration"

/-- The label of an edge.  An absent value or guard is `missing`. -/
structure Action where
  kind : ActionKind
  target : Option Access := none
  value : Expr := .missing
  guard : Expr := .missing
  decl : Option Declaration := none
deriving DecidableEq, Repr, Inhabited

/-- An action of no known kind, or one that lacks a part its kind asks for. -/
structure ActionError where
  kind : ActionKind
  lacking : Option ActionPart
deriving DecidableEq, Repr

/-- The message for an action that is not well formed. -/
def ActionError.message (e : ActionError) : String :=
  let tail := "invalid action of kind " ++ Text.quote e.kind.name
  match e.lacking with
  | some part => e.kind.name ++ " action without " ++ part.name ++ ": " ++ tail
  | none => tail

namespace Action

def assign (target : Access) (value : Expr) : Action :=
  { kind := .assign, target := some target, value := value }

def read (target : Access) : Action := { kind := .read, target := some target }

def write (value : Expr) : Action := { kind := .write, value := value }

def branch (guard : Expr) : Action := { kind := .boolean, guard := guard }

def declare (d : Declaration) : Action := { kind := .declare, decl := some d }

/-- The first part that the kind of the action asks for and that is absent. -/
def lacking? (a : Action) : Option ActionPart :=
  match a.kind with
  | .assign =>
    if a.target.isNone then some .target else if a.value = .missing then some .value else none
  | .read => if a.target.isNone then some .target else none
  | .write => if a.value = .missing then some .value else none
  | .boolean => if a.guard = .missing then some .guard else none
  | .declare => if a.decl.isNone then some .declaration else none
  | .unknown _ => none

/-- Checks that the kind is known and the parts it asks for are there. -/
def validate (a : Action) : Except ActionError Unit :=
  match a.kind, a.lacking? with
  | .unknown s, _ => .error ⟨.unknown s, none⟩
  | kind, some part => .error ⟨kind, some part⟩
  | _, none => .ok ()

/-- The access that the action writes to. -/
def defines (a : Action) : Option Access :=
  match a.kind with
  | .assign | .read => a.target
  | _ => none

/--
Every variable the action reads: those of the value or the guard, then those of the
index of an array target.
-/
def uses (a : Action) : List Access :=
  let own := match a.kind with
    | .assign | .write => a.value.accesses
    | .boolean => a.guard.accesses
    | _ => []
  let index := match a.target with
    | some (.element _ i _) => i.accesses
    | _ => []
  own ++ index

/-- How a target is written; an absent one has a name of its own. -/
def targetText (a : Action) : String :=
  match a.target with
  | some t => t.text
  | none => "<nil>"

/-- How the action is written.  A declaration that is absent cannot be written. -/
def text? (a : Action) : Option String :=
  match a.kind with
  | .assign => some (a.targetText ++ " := " ++ a.value.text)
  | .read => some ("read " ++ a.targetText)
  | .write => some ("write " ++ a.value.text)
  | .boolean => some a.guard.text
  | .declare => a.decl.map Declaration.text
  | .unknown s => some s

/-- What is written for an action inside a longer message, whether or not it can be written. -/
def shown (a : Action) : String :=
  a.text?.getD
    "%!s(PANIC=String method: runtime error: invalid memory address or nil pointer dereference)"

end Action

end MicroFlow
