import MicroFlow.Graph.Lowering
import MicroFlow.Proofs.Semantics.Run

/-!
# The meaning of program trees

The structured reading of a program: items are executed in order, a branch executes
one of its blocks, a loop executes its body as long as its condition holds.  Reads
consume the input, writes append to the output, declarations do nothing.  An
expression without a value stops the execution, which then does not end: there is no
final configuration.

Expressions are evaluated on the tree itself (`Arith.value?`, `Cond.truth?`), with no
detour through the expressions of graphs.
-/

namespace MicroFlow.Source

section Meaning

variable {V : Type} (A : Arithmetic V) (vars : Variables)

/-! ## Expressions -/

/-- The cell that a shape, a name and a field stand for, given the value of the index. -/
def cellOf? (shape : Shape) (name field : String) (index : Option V) : Option Cell :=
  match shape with
  | .scalar => some (.scalar name)
  | .array => do
    let v ← index
    elementAt? A vars name v
  | .record =>
    match field with
    | "fst" => some (.fst name)
    | "snd" => some (.snd name)
    | _ => none
  | .unknown _ => none

/-- The value of an arithmetic expression. -/
def Arith.value? (s : Store V) : Arith → Option V
  | .missing => none
  | .num _ n => some (A.ofInt n)
  | .access _ shape name index field =>
    (cellOf? A vars shape name field (index.value? s)).map s
  | .binary _ (.arith op) l r => do
    let v ← l.value? s
    let w ← r.value? s
    A.combine? op v w
  | .binary _ _ _ _ => none

/-- The truth of a condition. -/
def Cond.truth? (s : Store V) : Cond → Option Bool
  | .missing => none
  | .truth _ b => some b
  | .rel _ (.rel op) l r => do
    let v ← l.value? A vars s
    let w ← r.value? A vars s
    A.relate? op v w
  | .rel _ _ _ _ => none
  | .logic _ .and l r => do
    let a ← l.truth? s
    let b ← r.truth? s
    return a && b
  | .logic _ .or l r => do
    let a ← l.truth? s
    let b ← r.truth? s
    return a || b
  | .logic _ _ _ _ => none
  | .not _ x => do
    let b ← x.truth? s
    return !b

/-- The cell of a target. -/
def Place.locate? (s : Store V) (p : Place) : Option Cell :=
  cellOf? A vars p.shape p.name p.field (p.index.value? A vars s)

/-! ## Statements -/

mutual

/-- A statement, started in one configuration, ends in another. -/
inductive Stmt.Exec : Stmt → Config V → Config V → Prop
  | assign {pos : Pos} {place : Place} {value : Arith} {c : Config V} {l : Cell} {v : V}
      (place_eq : place.locate? A vars c.store = some l)
      (value_eq : value.value? A vars c.store = some v) :
      Stmt.Exec (.assign pos (some place) value) c { c with store := c.store.set l v }
  | read {pos : Pos} {place : Place} {s : Store V} {n : Int} {rest : List Int} {out : List V}
      {l : Cell} (place_eq : place.locate? A vars s = some l) :
      Stmt.Exec (.read pos (some place)) ⟨s, n :: rest, out⟩ ⟨s.set l (A.ofInt n), rest, out⟩
  | write {pos : Pos} {value : Arith} {c : Config V} {v : V}
      (value_eq : value.value? A vars c.store = some v) :
      Stmt.Exec (.write pos value) c { c with output := c.output ++ [v] }
  | thenBranch {pos : Pos} {cond : Cond} {body : Block} {c d : Config V}
      (cond_eq : cond.truth? A vars c.store = some true) (run : Block.Exec body c d) :
      Stmt.Exec (.ifThen pos cond body) c d
  | skip {pos : Pos} {cond : Cond} {body : Block} {c : Config V}
      (cond_eq : cond.truth? A vars c.store = some false) :
      Stmt.Exec (.ifThen pos cond body) c c
  | firstBranch {pos : Pos} {cond : Cond} {body other : Block} {c d : Config V}
      (cond_eq : cond.truth? A vars c.store = some true) (run : Block.Exec body c d) :
      Stmt.Exec (.ifElse pos cond body other) c d
  | otherBranch {pos : Pos} {cond : Cond} {body other : Block} {c d : Config V}
      (cond_eq : cond.truth? A vars c.store = some false) (run : Block.Exec other c d) :
      Stmt.Exec (.ifElse pos cond body other) c d
  | leave {pos : Pos} {cond : Cond} {body : Block} {c : Config V}
      (cond_eq : cond.truth? A vars c.store = some false) :
      Stmt.Exec (.loop pos cond body) c c
  | again {pos : Pos} {cond : Cond} {body : Block} {c d e : Config V}
      (cond_eq : cond.truth? A vars c.store = some true) (run : Block.Exec body c d)
      (more : Stmt.Exec (.loop pos cond body) d e) :
      Stmt.Exec (.loop pos cond body) c e

/-- The statements of a block, executed in order. -/
inductive Block.Exec : Block → Config V → Config V → Prop
  | nil {c : Config V} : Block.Exec .nil c c
  | cons {s : Stmt} {b : Block} {c d e : Config V} (first : Stmt.Exec s c d)
      (rest : Block.Exec b d e) : Block.Exec (.cons s b) c e

end

/-- An item, started in one configuration, ends in another. -/
inductive Item.Exec : Item → Config V → Config V → Prop
  | declare {pos : Pos} {shape : Shape} {name : String} {length : Int} {c : Config V} :
      Item.Exec (.declare pos shape name length) c c
  | stmt {s : Stmt} {c d : Config V} (run : Stmt.Exec A vars s c d) : Item.Exec (.stmt s) c d

/-- The items of a program, executed in order. -/
inductive ExecItems : Program → Config V → Config V → Prop
  | nil {c : Config V} : ExecItems [] c c
  | cons {i : Item} {rest : Program} {c d e : Config V} (first : Item.Exec A vars i c d)
      (later : ExecItems rest d e) : ExecItems (i :: rest) c e

end Meaning

/-- The variables that a program declares, in order. -/
def declarations : Program → Variables
  | [] => []
  | .declare _ shape name length :: rest => declarationOf shape name length :: declarations rest
  | _ :: rest => declarations rest

/-- A program, started in one configuration, ends in another. -/
def ExecProgram {V : Type} (A : Arithmetic V) (p : Program) (c d : Config V) : Prop :=
  ExecItems A (declarations p) p c d

end MicroFlow.Source
