import MicroFlow.Graph.Basic
import MicroFlow.Sign.Basic

/-!
# The meaning of expressions and actions

A store gives every cell a value; scalars, array elements and record fields are cells.
Expressions are evaluated in a store, strictly and from left to right, and an action
turns a store into the next one.  Where there is no value the run stops, which is
`none`: an index outside its array, a guard that does not hold, a part that is
missing.

Division by zero is the one point on which programs can be read in two ways, so the
values are a parameter, an `Arithmetic`.  `Arithmetic.halting` and `Arithmetic.absorbing`
both divide with truncation towards zero.  Everything else is said once, for any
arithmetic.  The results are frame facts.
-/

namespace MicroFlow

/-! ## Values -/

/-- The integer that an operator gives; a division by zero gives none. -/
def ArithOp.compute? : ArithOp → Int → Int → Option Int
  | add, m, n => some (m + n)
  | sub, m, n => some (m - n)
  | mul, m, n => some (m * n)
  | div, m, n => if n = 0 then none else some (m.tdiv n)
  | mod, m, n => if n = 0 then none else some (m.tmod n)

/-- Values of type `V` and how programs compute with them; `none` stops the run. -/
structure Arithmetic (V : Type) where
  ofInt : Int → V
  combine? : ArithOp → V → V → Option V
  relate? : RelOp → V → V → Option Bool
  /-- The place in an array that a value selects. -/
  index? : V → Option Int

/-- Integers.  A division by zero stops the run. -/
def Arithmetic.halting : Arithmetic Int where
  ofInt := id
  combine? := ArithOp.compute?
  relate? op m n := some (op.holds m n)
  index? := some

/-- An integer, or what a division by zero gives. -/
inductive Quantity where
  | int (n : Int)
  | undef
deriving DecidableEq, Repr, Inhabited

namespace Quantity

/-- The sign of a value. -/
def sign : Quantity → Sign
  | int n => .of n
  | undef => Sign.undef

/-- An operator on values: division by zero is undefined, and so is all that follows from it. -/
def apply (op : ArithOp) : Quantity → Quantity → Quantity
  | int m, int n => ((op.compute? m n).map int).getD undef
  | _, _ => undef

end Quantity

/-- Integers and `undef`.  A division by zero goes on with `undef`. -/
def Arithmetic.absorbing : Arithmetic Quantity where
  ofInt := .int
  combine? op x y := some (x.apply op y)
  relate?
    | op, .int m, .int n => some (op.holds m n)
    | _, _, _ => none
  index?
    | .int i => some i
    | .undef => none

/-! ## Stores -/

/-- A cell of a store: a scalar, an element of an array or a field of a record. -/
inductive Cell where
  | scalar (name : String)
  | element (name : String) (index : Int)
  | fst (name : String)
  | snd (name : String)
deriving DecidableEq, Repr, Inhabited

/-- The variable that a cell belongs to, by name and kind. -/
def Cell.var : Cell → String × Kind
  | scalar x => (x, .scalar)
  | element x _ => (x, .array)
  | fst x => (x, .record)
  | snd x => (x, .record)

/-- The variable that an access refers to, by name and kind. -/
def Access.var (a : Access) : String × Kind := (a.name, a.kind)

variable {l : Cell} {a : Action}

/-- A scalar has one cell. -/
theorem Cell.eq_scalar_of_var {x : String} (h : l.var = (x, .scalar)) : l = .scalar x := by
  cases l <;> simp_all [Cell.var]

/-- A value for every cell. -/
abbrev Store (V : Type) := Cell → V

/-- The store with a new value at one cell. -/
def Store.set {V : Type} (s : Store V) (l : Cell) (v : V) : Store V :=
  fun k => if k = l then v else s k

@[simp] theorem Store.set_self {V : Type} (s : Store V) (l : Cell) (v : V) :
    s.set l v l = v := by
  simp [Store.set]

theorem Store.set_of_ne {V : Type} (s : Store V) {k : Cell} (v : V) (h : k ≠ l) :
    s.set l v k = s k := by
  simp [Store.set, h]

/-- Two stores hold the same in every cell of a variable. -/
def Store.AgreeOn {V : Type} (x : String × Kind) (s t : Store V) : Prop :=
  ∀ l : Cell, l.var = x → s l = t l

/-- The length with which an array is declared. -/
def Variables.extent (vars : Variables) (x : String) : Int :=
  ((vars.find? (·.name == x)).map Declaration.length).getD 0

section Meaning

variable {V : Type} (A : Arithmetic V) (vars : Variables)

/-- The element of an array at an index, which has to be in range. -/
def elementAt? (x : String) (v : V) : Option Cell := do
  let i ← A.index? v
  if 0 ≤ i ∧ i < vars.extent x then some (.element x i) else none

/-! ## Expressions -/

/-- The value of an arithmetic expression. -/
def Expr.value? (s : Store V) : Expr → Option V
  | .literal n => some (A.ofInt n)
  | .scalar x => some (s (.scalar x))
  | .field x .fst => some (s (.fst x))
  | .field x .snd => some (s (.snd x))
  | .element x i _ => do
    let v ← i.value? s
    let l ← elementAt? A vars x v
    return s l
  | .node (.arith op) l r => do
    let v ← l.value? s
    let w ← r.value? s
    A.combine? op v w
  | _ => none

/-- The truth of a condition. -/
def Expr.truth? (s : Store V) : Expr → Option Bool
  | .truth b => some b
  | .node (.rel op) l r => do
    let v ← l.value? A vars s
    let w ← r.value? A vars s
    A.relate? op v w
  | .node .and l r => do
    let a ← l.truth? s
    let b ← r.truth? s
    return a && b
  | .node .or l r => do
    let a ← l.truth? s
    let b ← r.truth? s
    return a || b
  | .node .not _ r => do
    let b ← r.truth? s
    return !b
  | _ => none

/-- The cell that an access refers to. -/
def Access.locate? (s : Store V) : Access → Option Cell
  | .scalar x => some (.scalar x)
  | .field x .fst => some (.fst x)
  | .field x .snd => some (.snd x)
  | .element x i _ => do
    let v ← i.value? A vars s
    elementAt? A vars x v
  | _ => none

/-- The value that an access refers to. -/
def Access.value? (s : Store V) (a : Access) : Option V := (a.locate? A vars s).map s

/-! ## Actions -/

/-- The store behind an action.  A read stores the integer that it receives. -/
def Action.perform? (received : Int) (s : Store V) (a : Action) : Option (Store V) :=
  match a.kind with
  | .assign => do
    let target ← a.target
    let l ← target.locate? A vars s
    let v ← a.value.value? A vars s
    return s.set l v
  | .read => do
    let target ← a.target
    let l ← target.locate? A vars s
    return s.set l (A.ofInt received)
  | .write => do
    let _ ← a.value.value? A vars s
    return s
  | .boolean => do
    let b ← a.guard.truth? A vars s
    if b then some s else none
  | .declare => some s
  | .unknown _ => none

/-- The action can be performed: its guard holds, or it is no guard and its expressions have
values. -/
def Action.enabled (s : Store V) (a : Action) : Bool := (a.perform? A vars 0 s).isSome

/-- What the action writes to the output. -/
def Action.written (s : Store V) (a : Action) : List V :=
  match a.kind with
  | .write => (a.value.value? A vars s).toList
  | _ => []

/-- What it takes to perform an action, by its kind, and the store behind it. -/
inductive Action.Performs (a : Action) (received : Int) (s : Store V) : Store V → Prop
  | assign {target : Access} {l : Cell} {v : V} (kind : a.kind = .assign)
      (aims : a.target = some target) (cell : target.locate? A vars s = some l)
      (value : a.value.value? A vars s = some v) : a.Performs received s (s.set l v)
  | read {target : Access} {l : Cell} (kind : a.kind = .read) (aims : a.target = some target)
      (cell : target.locate? A vars s = some l) :
      a.Performs received s (s.set l (A.ofInt received))
  | write {v : V} (kind : a.kind = .write) (value : a.value.value? A vars s = some v) :
      a.Performs received s s
  | guard (kind : a.kind = .boolean) (holds : a.guard.truth? A vars s = some true) :
      a.Performs received s s
  | declare (kind : a.kind = .declare) : a.Performs received s s

/-! ## Frame facts -/

variable {A vars}

theorem var_of_elementAt? {x : String} {v : V} (h : elementAt? A vars x v = some l) :
    l.var = (x, .array) := by
  simp only [elementAt?, Option.bind_eq_bind, Option.bind_eq_some_iff] at h
  obtain ⟨i, -, h⟩ := h
  split at h
  · cases h; rfl
  · cases h

variable {s t s' : Store V} {e : Expr} {b : Access} {n : Int}

/-- An access leads to a cell of its variable. -/
theorem Access.var_of_locate? {a : Access} (h : a.locate? A vars s = some l) : l.var = a.var := by
  cases a with
  | scalar x => cases h; rfl
  | odd x => cases h
  | field x f => cases f <;> cases h <;> rfl
  | element x i lay =>
    simp only [Access.locate?, Option.bind_eq_bind, Option.bind_eq_some_iff] at h
    obtain ⟨v, -, h⟩ := h
    exact var_of_elementAt? h

/-- An expression is evaluated from the variables it accesses and from nothing else. -/
theorem Expr.value?_congr
    (h : ∀ a ∈ e.accesses, s.AgreeOn a.var t) : e.value? A vars s = e.value? A vars t := by
  induction e with
  | literal n => rfl
  | scalar x =>
    have hx : s (.scalar x) = t (.scalar x) :=
      h (.scalar x) (by simp [Expr.accesses]) (.scalar x) rfl
    simp [Expr.value?, hx]
  | field x f =>
    have hx : s.AgreeOn (x, .record) t := h (.field x f) (by simp [Expr.accesses])
    have h1 : s (.fst x) = t (.fst x) := hx (.fst x) rfl
    have h2 : s (.snd x) = t (.snd x) := hx (.snd x) rfl
    cases f <;> simp [Expr.value?, h1, h2]
  | element x i lay ih =>
    have hx : s.AgreeOn (x, .array) t := h (.element x i lay) (by simp [Expr.accesses])
    have hi := ih fun a ha => h a (by simp [Expr.accesses, ha])
    simp only [Expr.value?, hi]
    congr 1
    funext v
    cases hc : elementAt? A vars x v with
    | none => rfl
    | some l => simp [hx l (var_of_elementAt? hc)]
  | node op l r ihl ihr =>
    have hl := ihl fun a ha => h a (by simp [Expr.accesses, ha])
    have hr := ihr fun a ha => h a (by simp [Expr.accesses, ha])
    cases op <;> simp [Expr.value?, hl, hr]
  | missing | truth | odd | symbol => rfl

/-- So is a condition. -/
theorem Expr.truth?_congr
    (h : ∀ a ∈ e.accesses, s.AgreeOn a.var t) : e.truth? A vars s = e.truth? A vars t := by
  induction e with
  | node op l r ihl ihr =>
    have hl : ∀ a ∈ l.accesses, s.AgreeOn a.var t := fun a ha => h a (by simp [Expr.accesses, ha])
    have hr : ∀ a ∈ r.accesses, s.AgreeOn a.var t := fun a ha => h a (by simp [Expr.accesses, ha])
    cases op with
    | rel op => simp [Expr.truth?, Expr.value?_congr hl, Expr.value?_congr hr]
    | arith | and | or | not | unknown => simp [Expr.truth?, ihl hl, ihr hr]
  | missing | literal | truth | scalar | element | field | odd | symbol => rfl

/-- An element is found by its index. -/
theorem Access.locate?_congr {a : Access}
    (h : ∀ b ∈ a.index.accesses, s.AgreeOn b.var t) : a.locate? A vars s = a.locate? A vars t := by
  cases a with
  | scalar | odd => rfl
  | field x f => cases f <;> rfl
  | element x i lay =>
    have hi : i.value? A vars s = i.value? A vars t := Expr.value?_congr h
    simp [Access.locate?, hi]

/-- The value of an access is that of its cell. -/
theorem Access.value?_toExpr (s : Store V) (a : Access) :
    a.toExpr.value? A vars s = (a.locate? A vars s).map s := by
  cases a with
  | scalar | odd => rfl
  | field x f => cases f <;> rfl
  | element x i lay =>
    simp only [Access.toExpr, Expr.value?, Access.locate?]
    cases i.value? A vars s with
    | none => rfl
    | some v => cases h : elementAt? A vars x v <;> simp [h]

/-- What an index of an expression accesses, the expression does. -/
theorem Expr.accesses_trans {a : Access} (ha : a ∈ e.accesses)
    (hb : b ∈ a.toExpr.accesses) : b ∈ e.accesses := by
  induction e with
  | scalar | field | odd =>
    simp only [Expr.accesses, List.mem_singleton] at ha
    subst ha
    exact hb
  | element x i lay ih =>
    simp only [Expr.accesses, List.mem_cons] at ha
    rcases ha with rfl | ha
    · exact hb
    · exact List.mem_cons_of_mem _ (ih ha)
  | node op l r ihl ihr =>
    simp only [Expr.accesses, List.mem_append] at ha ⊢
    exact ha.imp ihl ihr
  | missing | literal | truth | symbol => cases ha

/-- What a used access needs is used, too. -/
theorem Action.uses_trans {u : Access} (hu : u ∈ a.uses)
    (hb : b ∈ u.toExpr.accesses) : b ∈ a.uses := by
  unfold Action.uses at hu ⊢
  rw [List.mem_append] at hu ⊢
  refine hu.imp (fun hown => ?_) fun hindex => ?_
  · split at hown
    · exact Expr.accesses_trans hown hb
    · exact Expr.accesses_trans hown hb
    · exact Expr.accesses_trans hown hb
    · cases hown
  · split at hindex
    · exact Expr.accesses_trans hindex hb
    · cases hindex

theorem Action.value?_congr {s t : Store V} {a : Action} (h : ∀ u ∈ a.uses, s.AgreeOn u.var t)
    {u : Access} (hu : u ∈ a.uses) : u.value? A vars s = u.value? A vars t := by
  have hs : u.value? A vars s = u.toExpr.value? A vars s := (Access.value?_toExpr s u).symm
  have ht : u.value? A vars t = u.toExpr.value? A vars t := (Access.value?_toExpr t u).symm
  rw [hs, ht]
  exact Expr.value?_congr fun b hb => h b (Action.uses_trans hu hb)

/-- An action is performed in one of these ways. -/
theorem Action.perform?_eq_some :
    a.perform? A vars n s = some s' ↔ a.Performs A vars n s s' := by
  constructor
  · intro h
    unfold Action.perform? at h
    split at h
    all_goals
      try simp only [Option.bind_eq_bind, Option.bind_eq_some_iff, Option.pure_def,
        Option.some.injEq] at h
    case h_1 kind =>
      obtain ⟨target, aims, l, cell, v, value, rfl⟩ := h
      exact .assign kind aims cell value
    case h_2 kind =>
      obtain ⟨target, aims, l, cell, rfl⟩ := h
      exact .read kind aims cell
    case h_3 kind =>
      obtain ⟨v, value, rfl⟩ := h
      exact .write kind value
    case h_4 kind =>
      obtain ⟨b, holds, h⟩ := h
      cases b <;> cases h
      exact .guard kind holds
    case h_5 kind => exact h ▸ .declare kind
    case h_6 => cases h
  · intro h
    cases h with
    | assign kind aims cell value => simp [Action.perform?, kind, aims, cell, value]
    | read kind aims cell => simp [Action.perform?, kind, aims, cell]
    | write kind value => simp [Action.perform?, kind, value]
    | guard kind holds => simp [Action.perform?, kind, holds]
    | declare kind => simp [Action.perform?, kind]

/-- Only a read depends on what is received. -/
theorem Action.perform?_of_ne_read (h : a.kind ≠ .read) (m n : Int) (s : Store V) :
    a.perform? A vars m s = a.perform? A vars n s := by
  unfold Action.perform?
  split
  case h_2 hkind => exact absurd hkind h
  all_goals rfl

/-- An action that was performed is enabled, whatever it received. -/
theorem Action.enabled_of_perform?
    (h : a.perform? A vars n s = some s') : a.enabled A vars s = true := by
  unfold Action.enabled
  by_cases hkind : a.kind = .read
  · simp only [Action.perform?, hkind, Option.bind_eq_bind, Option.bind_eq_some_iff] at h ⊢
    obtain ⟨target, ht, l, hl, -⟩ := h
    simp [ht, hl]
  · rw [Action.perform?_of_ne_read hkind 0 n, h]
    rfl

/-- The index of a target is used. -/
theorem Action.mem_uses_of_index {target : Access} (ht : a.target = some target)
    (hb : b ∈ target.index.accesses) : b ∈ a.uses := by
  unfold Action.uses
  rw [ht]
  cases target with
  | element x i lay =>
    simp only [List.mem_append]
    exact Or.inr hb
  | scalar | field | odd => simp [Access.index, Expr.accesses] at hb

/-- An action changes nothing but the variable it defines. -/
theorem Action.perform?_frame (h : a.perform? A vars n s = some s') {x : String × Kind}
    (hx : ∀ d, a.defines = some d → d.var ≠ x) : s.AgreeOn x s' := by
  intro l hl
  -- only an assignment and a read set a cell, and it is one of the target
  have hset : ∀ {target : Access} {k : Cell} (v : V), a.defines = some target →
      target.locate? A vars s = some k → s l = s.set k v l := by
    intro target k v hdef hk
    have hne : l ≠ k := by
      rintro rfl
      exact hx target hdef (by rw [← Access.var_of_locate? hk, hl])
    rw [Store.set_of_ne s v hne]
  cases perform?_eq_some.mp h with
  | assign kind aims cell
  | read kind aims cell => exact hset _ (by simp [Action.defines, kind, aims]) cell
  | write | guard | declare => rfl

/--
Where two stores agree on the variables that an action uses, it can be performed in
both or in neither.  Afterwards they agree on all that they agreed on before, and on
the scalar that the action defines.
-/
theorem Action.perform?_congr
    (hUses : ∀ u ∈ a.uses, s.AgreeOn u.var t) (h : a.perform? A vars n s = some s') :
    ∃ t', a.perform? A vars n t = some t' ∧
      ∀ x : String × Kind, s.AgreeOn x t ∨ (∃ y, a.defines = some (.scalar y) ∧ x = (y, .scalar)) →
        s'.AgreeOn x t' := by
  have hLocate : ∀ {target : Access}, a.target = some target →
      target.locate? A vars s = target.locate? A vars t := fun ht =>
    Access.locate?_congr fun b hb => hUses b (Action.mem_uses_of_index ht hb)
  -- setting the cell of the target to the same value
  have hset : ∀ {target : Access} {k : Cell} (v : V), a.defines = some target →
      target.locate? A vars s = some k →
      ∀ x : String × Kind, s.AgreeOn x t ∨ (∃ y, a.defines = some (.scalar y) ∧ x = (y, .scalar)) →
        Store.AgreeOn x (s.set k v) (t.set k v) := by
    intro target k v hdef hk x hx l hl
    by_cases hlk : l = k
    · rw [hlk, Store.set_self, Store.set_self]
    · rw [Store.set_of_ne s v hlk, Store.set_of_ne t v hlk]
      rcases hx with hx | ⟨y, hy, rfl⟩
      · exact hx l hl
      · -- a scalar has no cell besides the one that was set
        rw [hdef] at hy
        cases hy
        cases hk
        exact absurd (Cell.eq_scalar_of_var hl) hlk
  simp only [perform?_eq_some] at h ⊢
  -- an action that defines nothing leaves both stores as they are
  have hsame : a.defines = none → ∀ x : String × Kind,
      s.AgreeOn x t ∨ (∃ y, a.defines = some (.scalar y) ∧ x = (y, .scalar)) → s.AgreeOn x t := by
    intro hnone x hx
    simpa [hnone] using hx
  have hvalue : a.kind = .assign ∨ a.kind = .write →
      a.value.value? A vars s = a.value.value? A vars t := fun hkind =>
    Expr.value?_congr fun b hb => hUses b (by rcases hkind with h | h <;> simp [Action.uses, h, hb])
  cases h with
  | assign kind aims cell value =>
    exact ⟨_, .assign kind aims (hLocate aims ▸ cell) (hvalue (.inl kind) ▸ value),
      hset _ (by simp [Action.defines, kind, aims]) cell⟩
  | read kind aims cell =>
    exact ⟨_, .read kind aims (hLocate aims ▸ cell),
      hset _ (by simp [Action.defines, kind, aims]) cell⟩
  | write kind value =>
    exact ⟨t, .write kind (hvalue (.inr kind) ▸ value), hsame (by simp [Action.defines, kind])⟩
  | guard kind holds =>
    have hguard : a.guard.truth? A vars s = a.guard.truth? A vars t :=
      Expr.truth?_congr fun u hu => hUses u (by simp [Action.uses, kind, hu])
    exact ⟨t, .guard kind (hguard ▸ holds), hsame (by simp [Action.defines, kind])⟩
  | declare kind => exact ⟨t, .declare kind, hsame (by simp [Action.defines, kind])⟩

end Meaning

/-- The action writes to the variable. -/
def Action.Writes (a : Action) (x : String × Kind) : Prop := ∃ d, a.defines = some d ∧ d.var = x

/-- The action writes to the variable, a scalar, so that nothing is left of its value. -/
def Action.Replaces (a : Action) (x : String × Kind) : Prop :=
  ∃ y, a.defines = some (.scalar y) ∧ x = (y, .scalar)

theorem Action.Replaces.writes {x : String × Kind} (h : a.Replaces x) : a.Writes x := by
  obtain ⟨y, hy, rfl⟩ := h
  exact ⟨.scalar y, hy, rfl⟩

end MicroFlow
