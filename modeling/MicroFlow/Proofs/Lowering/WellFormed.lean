import MicroFlow.Proofs.Lowering.Accepted
import MicroFlow.Proofs.Lowering.Meaning
import MicroFlow.Proofs.Source.Parse

/-!
# Well-formed programs

What it takes for a program to have a graph, said without the check: `WellFormed` is about the
references in its statements and the blocks below them, wherever they stand, and about the
declarations before them.  `Violation` says for each refusal what is wrong with the program.
-/

namespace MicroFlow

namespace Source

/-! ## What a program refers to -/

/-- The kind of variable that a shape asks for. -/
def Shape.kind : Shape → Kind
  | scalar => .scalar
  | array => .array
  | record => .record
  | unknown _ => .unknown

/-- An access to a variable, as it is written at a place. -/
structure Reference where
  pos : Pos
  shape : Shape
  name : String
  field : String

/-- The accesses in an expression, those in indices included. -/
def Arith.references : Arith → List Reference
  | missing => []
  | num _ _ => []
  | access pos shape name index field => index.references ++ [⟨pos, shape, name, field⟩]
  | binary _ _ l r => l.references ++ r.references

/-- The accesses in a condition. -/
def Cond.references : Cond → List Reference
  | missing => []
  | truth _ _ => []
  | rel _ _ l r => l.references ++ r.references
  | logic _ _ l r => l.references ++ r.references
  | not _ x => x.references

/-- The accesses in a target, its own included. -/
def targetReferences : Option Place → List Reference
  | none => []
  | some x => x.toArith.references

mutual

/-- The accesses in a statement. -/
def Stmt.references : Stmt → List Reference
  | .missing => []
  | .assign _ target value => targetReferences target ++ value.references
  | .read _ target => targetReferences target
  | .write _ value => value.references
  | .ifThen _ cond body => cond.references ++ body.references
  | .ifElse _ cond body other => cond.references ++ (body.references ++ other.references)
  | .loop _ cond body => cond.references ++ body.references

/-- The accesses in the statements of a block. -/
def Block.references : Block → List Reference
  | .nil => []
  | .cons s b => s.references ++ b.references

end

mutual

/-- The blocks in a statement, at any depth, with the places of the statements they belong to. -/
def Stmt.bodies : Stmt → List (Pos × Block)
  | .ifThen pos _ body => (pos, body) :: body.bodies
  | .ifElse pos _ body other => (pos, body) :: body.bodies ++ (pos, other) :: other.bodies
  | .loop pos _ body => (pos, body) :: body.bodies
  | _ => []

/-- The blocks in the statements of a block. -/
def Block.bodies : Block → List (Pos × Block)
  | .nil => []
  | .cons s b => s.bodies ++ b.bodies

end

def Declares (items : Program) (name : String) (shape : Shape) : Prop :=
  ∃ pos length, Item.declare pos shape name length ∈ items

/-- An access to a record picks one of its two fields. -/
def Reference.Selects (r : Reference) : Prop :=
  r.shape = .record → r.field = "fst" ∨ r.field = "snd"

theorem selects_of_ne {r : Reference} (h : r.shape ≠ .record) : r.Selects := fun hr => absurd hr h

/-- The programs that have a graph. -/
structure WellFormed (p : Program) : Prop where
  /-- No name is declared twice. -/
  names : ((declarations p).map Declaration.name).Nodup
  lengths : ∀ pos name length, Item.declare pos .array name length ∈ p → 0 < length
  /-- Every access is to a variable that an earlier item declares with the shape of the access. -/
  declared : ∀ before s after, p = before ++ .stmt s :: after →
    ∀ r ∈ s.references, Declares before r.name r.shape
  selects : ∀ s, Item.stmt s ∈ p → ∀ r ∈ s.references, r.Selects
  bodies : ∀ s, Item.stmt s ∈ p → ∀ b ∈ s.bodies, b.2 ≠ .nil

/-- What is wrong with a program that is refused with an error. -/
inductive Violation (p : Program) : BuildError → Prop
  | duplicate {before after : Program} {pos : Pos} {shape shape' : Shape} {name : String}
      {length : Int} (split : p = before ++ .declare pos shape name length :: after)
      (again : Declares before name shape') : Violation p (.duplicate pos name)
  | arrayLength {pos : Pos} {name : String} {length : Int}
      (mem : Item.declare pos .array name length ∈ p) (negative : length ≤ 0) :
      Violation p (.arrayLength pos name length)
  | undeclared {before after : Program} {s : Stmt} {r : Reference}
      (split : p = before ++ .stmt s :: after) (mem : r ∈ s.references)
      (absent : ¬ Declares before r.name r.shape) :
      Violation p (.undeclared r.pos r.name r.shape.kind)
  | selector {s : Stmt} {r : Reference} (item : Item.stmt s ∈ p) (mem : r ∈ s.references)
      (odd : ¬ r.Selects) : Violation p (.selector r.pos r.name r.field)
  | emptyBlock {s : Stmt} {pos : Pos} (item : Item.stmt s ∈ p) (mem : (pos, .nil) ∈ s.bodies) :
      Violation p (.emptyBlock pos)

/-! ## The declarations of a program -/

variable {p before after : Program} {vars : Variables} {name : String} {shape : Shape}
  {e : BuildError}

theorem name_declarationOf (shape : Shape) (name : String) (length : Int) :
    (declarationOf shape name length).name = name := by
  cases shape <;> rfl

theorem kind_declarationOf (known : ∀ k, shape ≠ .unknown k) (name : String) (length : Int) :
    (declarationOf shape name length).kind = shape.kind := by
  cases shape with
  | scalar | array | record => rfl
  | unknown k => exact absurd rfl (known k)

theorem Shape.eq_of_kind {other : Shape} (known : ∀ k, shape ≠ .unknown k)
    (h : shape.kind = other.kind) : shape = other := by
  cases shape with
  | unknown k => exact absurd rfl (known k)
  | scalar | array | record => cases other <;> simp_all [Shape.kind]

theorem name_accessOf (shape : Shape) (name : String) (index : Expr) (field : String) :
    (accessOf shape name index field).name = name := by
  cases shape <;> rfl

theorem kind_accessOf (shape : Shape) (name : String) (index : Expr) (field : String) :
    (accessOf shape name index field).kind = shape.kind := by
  cases shape <;> rfl

theorem of_accessOf (name : String) (index : Expr) (field : String) :
    vars.of (accessOf shape name index field) = vars.lookup name shape.kind := by
  rw [Variables.of, name_accessOf, kind_accessOf]

theorem declarations_append (p q : Program) :
    declarations (p ++ q) = declarations p ++ declarations q := by
  induction p with
  | nil => rfl
  | cons i rest ih =>
    cases i with
    | declare => simp [declarations, ih]
    | stmt | expression | missing => simpa [declarations] using ih

/-- What is declared, and where. -/
theorem mem_declarations {d : Declaration} : d ∈ declarations p ↔
    ∃ pos shape name length, Item.declare pos shape name length ∈ p ∧
      d = declarationOf shape name length := by
  induction p with
  | nil => simp [declarations]
  | cons i rest ih =>
    cases i with
    | declare pos shape name length =>
      rw [declarations, List.mem_cons, ih]
      constructor
      · rintro (rfl | ⟨pos', shape', name', length', hmem, rfl⟩)
        · exact ⟨pos, shape, name, length, List.mem_cons_self, rfl⟩
        · exact ⟨pos', shape', name', length', List.mem_cons_of_mem _ hmem, rfl⟩
      · rintro ⟨pos', shape', name', length', hmem, rfl⟩
        rcases List.mem_cons.mp hmem with heq | hmem
        · cases heq
          exact .inl rfl
        · exact .inr ⟨pos', shape', name', length', hmem, rfl⟩
    | stmt | expression | missing => simpa [declarations] using ih

/-- Without repeated names every declaration is found. -/
theorem exists_lookup (hnames : (vars.map Declaration.name).Nodup) {d : Declaration}
    (hd : d ∈ vars) : ∃ i, vars.lookup d.name d.kind = some i := by
  obtain ⟨i, hi⟩ : ∃ i, vars.findIdx? (·.name == d.name) = some i := by
    cases hfind : vars.findIdx? (·.name == d.name) with
    | some i => exact ⟨i, rfl⟩
    | none => simpa using List.findIdx?_eq_none_iff.mp hfind d hd
  obtain ⟨hlt, hname, -⟩ := List.findIdx?_eq_some_iff_getElem.mp hi
  have hsame : vars[i] = d :=
    List.inj_on_of_nodup_map hnames (List.getElem_mem hlt) hd (by simpa using hname)
  refine ⟨i, ?_⟩
  unfold Variables.lookup
  simp [hi, hlt, hsame]

/-- The variables are those that the items declare. -/
def Scopes (before : Program) (vars : Variables) : Prop :=
  ∀ name shape, (∃ i, vars.lookup name shape.kind = some i) ↔ Declares before name shape

/-- The items declare variables of the three known shapes. -/
def Known (items : Program) : Prop :=
  ∀ pos shape name length, Item.declare pos shape name length ∈ items → ∀ k, shape ≠ .unknown k

/-- A program that passes has every name once. -/
theorem nodup_of_check (h : checkProgram [] p = .ok vars) :
    vars = declarations p ∧ (vars.map Declaration.name).Nodup :=
  ⟨by simpa using checkProgram_vars h, (plain_of_checkProgram h ⟨by simp, by simp⟩).names⟩

/-- The variables collected on the way are what the items before declare. -/
theorem scopes_of_check (known : Known before) (h : checkProgram [] before = .ok vars) :
    Scopes before vars := by
  obtain ⟨rfl, hnames⟩ := nodup_of_check h
  intro name shape
  constructor
  · rintro ⟨i, hi⟩
    -- a variable is looked up for an access of that shape
    rw [← of_accessOf name .missing ""] at hi
    obtain ⟨d, hd, hname, hkind, -⟩ := Variables.of_eq_some hi
    obtain ⟨pos, shape', name', length, hmem, rfl⟩ :=
      mem_declarations.mp (List.mem_of_getElem? hd)
    have hshape := known pos shape' name' length hmem
    rw [kind_declarationOf hshape, kind_accessOf] at hkind
    rw [name_declarationOf, name_accessOf] at hname
    obtain rfl := Shape.eq_of_kind hshape hkind
    exact ⟨pos, length, hname ▸ hmem⟩
  · rintro ⟨pos, length, hmem⟩
    have hd := mem_declarations.mpr ⟨pos, shape, name, length, hmem, rfl⟩
    have hlookup := exists_lookup hnames hd
    rwa [name_declarationOf, kind_declarationOf (known pos shape name length hmem)] at hlookup

/-! ## The check of a statement -/

/-- What a check amounts to that goes through references and blocks. -/
inductive Verdict (before : Program) (refs : List Reference) (bodies : List (Pos × Block)) :
    Except BuildError Unit → Prop
  | accepted (declared : ∀ r ∈ refs, Declares before r.name r.shape)
      (selects : ∀ r ∈ refs, r.Selects) (full : ∀ b ∈ bodies, b.2 ≠ .nil) :
      Verdict before refs bodies (.ok ())
  | undeclared {r : Reference} (mem : r ∈ refs) (absent : ¬ Declares before r.name r.shape) :
      Verdict before refs bodies (.error (.undeclared r.pos r.name r.shape.kind))
  | selector {r : Reference} (mem : r ∈ refs) (odd : ¬ r.Selects) :
      Verdict before refs bodies (.error (.selector r.pos r.name r.field))
  | emptyBlock {pos : Pos} (mem : (pos, .nil) ∈ bodies) :
      Verdict before refs bodies (.error (.emptyBlock pos))

variable {refs refs' : List Reference} {bodies bodies' : List (Pos × Block)}

/-- Verdicts of two checks, one after the other. -/
theorem Verdict.andThen {x y : Except BuildError Unit} (h : Verdict before refs bodies x)
    (h' : Verdict before refs' bodies' y) :
    Verdict before (refs ++ refs') (bodies ++ bodies') (x >>= fun _ => y) := by
  cases h with
  | undeclared mem absent => exact .undeclared (List.mem_append_left _ mem) absent
  | selector mem odd => exact .selector (List.mem_append_left _ mem) odd
  | emptyBlock mem => exact .emptyBlock (List.mem_append_left _ mem)
  | accepted declared selects full =>
    cases h' with
    | undeclared mem absent => exact .undeclared (List.mem_append_right _ mem) absent
    | selector mem odd => exact .selector (List.mem_append_right _ mem) odd
    | emptyBlock mem => exact .emptyBlock (List.mem_append_right _ mem)
    | accepted declared' selects' full' =>
      exact .accepted (List.forall_mem_append.mpr ⟨declared, declared'⟩)
        (List.forall_mem_append.mpr ⟨selects, selects'⟩)
        (List.forall_mem_append.mpr ⟨full, full'⟩)

theorem verdict_nil : Verdict before [] [] (.ok ()) := .accepted nofun nofun nofun

/-- The last check of an access: it refers to a variable. -/
theorem verdict_lookup (hscope : Scopes before vars) (r : Reference) (selects : r.Selects)
    (index : Expr) : Verdict before [r] []
      (if (vars.of (accessOf r.shape r.name index r.field)).isNone then
        .error (.undeclared r.pos (accessOf r.shape r.name index r.field).name
          (accessOf r.shape r.name index r.field).kind) else .ok ()) := by
  rw [of_accessOf, name_accessOf, kind_accessOf]
  cases hlookup : vars.lookup r.name r.shape.kind with
  | none =>
    refine .undeclared List.mem_cons_self fun hdeclared => ?_
    obtain ⟨i, hi⟩ := (hscope r.name r.shape).mpr hdeclared
    rw [hlookup] at hi
    cases hi
  | some i =>
    refine .accepted ?_ ?_ nofun
    · simpa using (hscope r.name r.shape).mp ⟨i, hlookup⟩
    · simpa using selects

theorem isNone_ofName {field : String} :
    (Selector.ofName? field).isNone = true ↔ ¬ (field = "fst" ∨ field = "snd") := by
  unfold Selector.ofName?
  split <;> simp_all

namespace Grammar

/-- An expression passes if all that it refers to is declared. -/
theorem Expression.verdict (hscope : Scopes before vars) {l : ArithLevel} {a b : Rest} {x : Arith}
    (h : Expression l a x b) : Verdict before x.references [] (x.check vars) := by
  induction h with
  | @scalar x p =>
    rw [Arith.check]
    exact verdict_lookup hscope ⟨p, .scalar, x, ""⟩ (selects_of_ne (by simp)) _
  | @element x p q r a b i name index ih =>
    rw [Arith.check]
    exact ih.andThen (verdict_lookup hscope ⟨p, .array, x, ""⟩ (selects_of_ne (by simp)) _)
  | @field x f p =>
    rw [Arith.check]
    cases hselector : (Selector.ofName? f).isNone with
    | true =>
      refine .selector (r := ⟨p, .record, x, f⟩) List.mem_cons_self fun hselects => ?_
      exact isNone_ofName.mp hselector (hselects rfl)
    | false =>
      refine verdict_lookup hscope ⟨p, .record, x, f⟩ (fun _ => ?_) _
      by_contra hfield
      rw [isNone_ofName.mpr hfield] at hselector
      cases hselector
  | number =>
    exact verdict_nil
  | access _ ih => exact ih
  | parens _ ih => exact ih
  | one _ ih => exact ih
  | single _ ih => exact ih
  | times _ _ _ ihl ihr | plus _ _ _ ihl ihr =>
    rw [Arith.check]
    exact ihl.andThen ihr

/-- The same for conditions. -/
theorem Condition.verdict (hscope : Scopes before vars) {l : CondLevel} {a b : Rest} {x : Cond}
    (h : Condition l a x b) : Verdict before x.references [] (x.check vars) := by
  induction h with
  | yes => exact verdict_nil
  | no => exact verdict_nil
  | parens _ ih => exact ih
  | plain _ ih => exact ih
  | not _ ih => exact ih
  | one _ ih => exact ih
  | single _ ih => exact ih
  | relation left _ right =>
    rw [Cond.check]
    exact (left.verdict hscope).andThen (right.verdict hscope)
  | and _ _ ihl ihr | or _ _ ihl ihr =>
    rw [Cond.check]
    exact ihl.andThen ihr

theorem Guard.verdict (hscope : Scopes before vars) {a b : Rest} {x : Cond} (h : Guard a x b) :
    Verdict before x.references [] (x.check vars) := by
  cases h with
  | parens inner => exact inner.verdict hscope

end Grammar

/-- The check of a block that belongs to a statement: it may not be empty. -/
theorem Verdict.body {b : Block} (h : Verdict before b.references b.bodies (b.check vars))
    (pos : Pos) : Verdict before b.references ((pos, b) :: b.bodies) (checkBody vars pos b) := by
  cases b with
  | nil => exact .emptyBlock List.mem_cons_self
  | cons s b =>
    have hself : Verdict before [] [(pos, Block.cons s b)] (.ok ()) :=
      .accepted nofun nofun (by simp)
    exact hself.andThen h

namespace Grammar

mutual

/-- A statement passes if its references are and no body is empty. -/
theorem Statement.verdict (hscope : Scopes before vars) : ∀ {a b : Rest} {s : Stmt},
    Statement a s b → Verdict before s.references s.bodies (s.check vars)
  | _, _, _, .assign target value => by
    rw [Stmt.check]
    exact (target.verdict hscope).andThen (value.verdict hscope)
  | _, _, _, .read target => by
    rw [Stmt.check]
    exact target.verdict hscope
  | _, _, _, .write value => by
    rw [Stmt.check]
    exact value.verdict hscope
  | _, _, _, .ifThen guard first => by
    rw [Stmt.check]
    exact (guard.verdict hscope).andThen ((first.verdict hscope).body _)
  | _, _, _, .ifElse guard first second => by
    rw [Stmt.check]
    exact (guard.verdict hscope).andThen
      (((first.verdict hscope).body _).andThen ((second.verdict hscope).body _))
  | _, _, _, .loop guard repeated => by
    rw [Stmt.check]
    exact (guard.verdict hscope).andThen ((repeated.verdict hscope).body _)

theorem Block.verdict (hscope : Scopes before vars) : ∀ {a b : Rest} {body : Source.Block},
    Block a body b → Verdict before body.references body.bodies (body.check vars)
  | _, _, _, .braces inner => inner.verdict hscope

theorem Statements.verdict (hscope : Scopes before vars) : ∀ {a b : Rest} {body : Source.Block},
    Statements a body b → Verdict before body.references body.bodies (body.check vars)
  | _, _, _, .nil => verdict_nil
  | _, _, _, .cons first others => by
    rw [Source.Block.check]
    exact (first.verdict hscope).andThen (others.verdict hscope)

end

/-! ## The check of a program -/

/-- The item is written as the grammar says. -/
inductive Written : Item → Prop
  | declaration {a b : Rest} {i : Item} (h : Declaration a i b) : Written i
  | statement {a b : Rest} {s : Stmt} (h : Statement a s b) : Written (.stmt s)

/-- Items of a program that was read are written. -/
theorem Derives.written {a : Rest} (h : Derives a p) : ∀ i ∈ p, Written i := by
  induction h with
  | nil => simp
  | declaration first _ ih => exact List.forall_mem_cons.mpr ⟨.declaration first, ih⟩
  | statement first _ ih => exact List.forall_mem_cons.mpr ⟨.statement first, ih⟩

theorem Written.known {pos : Pos} {length : Int} (h : Written (.declare pos shape name length)) :
    ∀ k, shape ≠ .unknown k := by
  cases h with
  | declaration h => cases h <;> nofun

/-- Statements leave the variables as they are. -/
theorem Written.check_stmt {s : Stmt} (h : Written (.stmt s)) :
    (Item.stmt s).check vars = s.check vars >>= fun _ => .ok vars := by
  cases h with
  | declaration h => cases h
  | statement h => cases h <;> rfl

theorem Written.verdict {s : Stmt} (h : Written (.stmt s)) (hscope : Scopes before vars) :
    Verdict before s.references s.bodies (s.check vars) := by
  cases h with
  | declaration h => cases h
  | statement h => exact h.verdict hscope

end Grammar

open Grammar

/-- The check goes through a program from its start. -/
theorem checkProgram_append (vars : Variables) (p q : Program) :
    checkProgram vars (p ++ q) = checkProgram vars p >>= fun vars => checkProgram vars q := by
  induction p generalizing vars with
  | nil => rfl
  | cons i rest ih =>
    rw [List.cons_append, checkProgram, checkProgram]
    cases i.check vars with
    | error e => rfl
    | ok vars' => exact ih vars'

/-- The check of an item in the middle of a program. -/
theorem exists_check_of_split {vars' : Variables} {i : Item}
    (h : checkProgram vars (before ++ i :: after) = .ok vars') :
    ∃ vars₁ vars₂, checkProgram vars before = .ok vars₁ ∧ i.check vars₁ = .ok vars₂ := by
  rw [checkProgram_append, bind_eq_ok] at h
  obtain ⟨vars₁, hbefore, h⟩ := h
  rw [checkProgram, bind_eq_ok] at h
  obtain ⟨vars₂, hi, -⟩ := h
  exact ⟨vars₁, vars₂, hbefore, hi⟩

/-- A program that fails does so at an item behind items that pass. -/
theorem exists_split_of_error (h : checkProgram vars p = .error e) :
    ∃ before i after vars₁, p = before ++ i :: after ∧ checkProgram vars before = .ok vars₁ ∧
      i.check vars₁ = .error e := by
  induction p generalizing vars with
  | nil => cases h
  | cons i rest ih =>
    rw [checkProgram] at h
    rcases bind_eq_error.mp h with hi | ⟨vars₁, hi, hrest⟩
    · exact ⟨[], i, rest, vars, rfl, rfl, hi⟩
    · obtain ⟨before, j, after, vars₂, rfl, hbefore, hj⟩ := ih hrest
      refine ⟨i :: before, j, after, vars₂, rfl, ?_, hj⟩
      rw [checkProgram, hi]
      exact hbefore

/-- Why a declaration is refused. -/
theorem declare_refused {pos : Pos} {length : Int} (known : ∀ k, shape ≠ .unknown k)
    (h : (Item.declare pos shape name length).check vars = .error e) :
    (shape = .array ∧ length ≤ 0 ∧ e = .arrayLength pos name length) ∨
      (∃ d ∈ vars, d.name = name) ∧ e = .duplicate pos name := by
  by_cases hlength : shape = .array ∧ length ≤ 0
  · obtain ⟨rfl, hle⟩ := hlength
    unfold Item.check at h
    simp only [if_pos hle] at h
    cases h
    exact .inl ⟨rfl, hle, rfl⟩
  · by_cases hany : ∃ d ∈ vars, d.name = name
    · have htrue : vars.any (·.name == name) = true := by simpa using hany
      unfold Item.check at h
      simp only [htrue] at h
      refine .inr ⟨hany, ?_⟩
      cases shape with
      | scalar | record =>
        cases h
        rfl
      | array =>
        simp only [if_neg fun hle => hlength ⟨rfl, hle⟩] at h
        cases h
        rfl
      | unknown k => exact absurd rfl (known k)
    · have hnew : ∀ d ∈ vars, d.name ≠ name := fun d hd heq => hany ⟨d, hd, heq⟩
      rw [Item.check_declare known hnew
        fun harray => Int.not_le.mp fun hle => hlength ⟨harray, hle⟩] at h
      cases h

theorem known_of_written (hp : ∀ i ∈ p, Written i) : Known p :=
  fun pos shape name length hmem => (hp (.declare pos shape name length) hmem).known

/-- What the check of a program finds out about a statement. -/
theorem accepted_of_check {s : Stmt} (hp : ∀ i ∈ before ++ .stmt s :: after, Written i)
    (h : checkProgram [] (before ++ .stmt s :: after) = .ok vars) :
    (∀ r ∈ s.references, Declares before r.name r.shape) ∧ (∀ r ∈ s.references, r.Selects) ∧
      ∀ b ∈ s.bodies, b.2 ≠ .nil := by
  obtain ⟨vars₁, vars₂, hbefore, hs⟩ := exists_check_of_split h
  have hknown := known_of_written fun i hi => hp i (List.mem_append_left _ hi)
  have hverdict := (hp (.stmt s) (by simp)).verdict (scopes_of_check hknown hbefore)
  rw [Item.check_stmt hs] at hverdict
  cases hverdict with
  | accepted declared selects full => exact ⟨declared, selects, full⟩

/-- A program that passes is well-formed. -/
theorem wellFormed_of_check (hp : ∀ i ∈ p, Written i) (h : checkProgram [] p = .ok vars) :
    WellFormed p := by
  have hstmt : ∀ s, Item.stmt s ∈ p →
      (∀ r ∈ s.references, r.Selects) ∧ ∀ b ∈ s.bodies, b.2 ≠ .nil := by
    intro s hs
    obtain ⟨before, after, rfl⟩ := List.append_of_mem hs
    exact (accepted_of_check hp h).2
  refine ⟨?_, fun pos name length hmem => ?_, fun before s after split => ?_,
    fun s hs => (hstmt s hs).1, fun s hs => (hstmt s hs).2⟩
  · obtain ⟨rfl, hnames⟩ := nodup_of_check h
    exact hnames
  · obtain ⟨before, after, rfl⟩ := List.append_of_mem hmem
    obtain ⟨vars₁, vars₂, -, hi⟩ := exists_check_of_split h
    exact (Item.declare_of_check hi).2.1 rfl
  · subst split
    exact (accepted_of_check hp h).1

/-- One that fails has the violation that the error names. -/
theorem violation_of_check (hp : ∀ i ∈ p, Written i) (h : checkProgram [] p = .error e) :
    Violation p e := by
  -- the first item that fails stands behind items that pass
  obtain ⟨before, i, after, vars₁, rfl, hbefore, hi⟩ := exists_split_of_error h
  have hmem : i ∈ before ++ i :: after := by simp
  have hwritten := hp i hmem
  cases i with
  | declare pos shape name length =>
    obtain ⟨rfl, hle, rfl⟩ | ⟨⟨d, hd, hname⟩, rfl⟩ := declare_refused hwritten.known hi
    · exact .arrayLength hmem hle
    · obtain ⟨hvars, -⟩ := nodup_of_check hbefore
      rw [hvars] at hd
      obtain ⟨pos', shape', name', length', hmem', rfl⟩ := mem_declarations.mp hd
      rw [name_declarationOf] at hname
      subst hname
      exact .duplicate rfl ⟨pos', length', hmem'⟩
  | stmt s =>
    rw [hwritten.check_stmt] at hi
    have hs : s.check vars₁ = .error e := by
      rcases bind_eq_error.mp hi with hs | ⟨_, -, hs⟩
      · exact hs
      · cases hs
    have hknown := known_of_written fun j hj => hp j (List.mem_append_left _ hj)
    have hverdict := hwritten.verdict (scopes_of_check hknown hbefore)
    rw [hs] at hverdict
    cases hverdict with
    | undeclared mem absent => exact .undeclared rfl mem absent
    | selector mem odd => exact .selector hmem mem odd
    | emptyBlock mem => exact .emptyBlock hmem mem
  | expression form | missing =>
    cases hwritten with
    | declaration h => cases h

/-- No program is well-formed and has a violation. -/
theorem Violation.not_wellFormed (h : Violation p e) : ¬ WellFormed p := by
  intro hp
  cases h with
  | @duplicate before after pos shape shape' name length split again =>
    obtain ⟨pos', length', hmem⟩ := again
    have hnames := hp.names
    rw [split, declarations_append, List.map_append, List.nodup_append] at hnames
    refine hnames.2.2 name ?_ name ?_ rfl
    · exact List.mem_map.mpr ⟨_, mem_declarations.mpr ⟨_, _, _, _, hmem, rfl⟩,
        name_declarationOf ..⟩
    · simp [declarations, name_declarationOf]
  | arrayLength mem negative =>
    have hpositive := hp.lengths _ _ _ mem
    omega
  | undeclared split mem absent => exact absent (hp.declared _ _ _ split _ mem)
  | selector item mem odd => exact odd (hp.selects _ item _ mem)
  | emptyBlock item mem => exact hp.bodies _ item _ mem rfl

end Source

open Source

/-- A program that was read from a text has a graph if and only if it is well-formed.  If it has
none, then the error is about a violation in the program; and a graph that was laid out passes the
last validation. -/
theorem build_accepts_wellFormed {src : Text.Bytes} {p : Program} (h : Source.parse src = .ok p) :
    ((∃ b, build p = .ok b) ↔ WellFormed p) ∧ (∀ e, build p = .error e → Violation p e) ∧
      ∀ vars, checkProgram [] p = .ok vars → (Graph.ofProgram vars p).validate = .ok () := by
  obtain ⟨l, -, hderives⟩ := derives_of_parse h
  have hp := hderives.written
  cases hcheck : checkProgram [] p with
  | ok vars =>
    have hbuild := build_of_check hcheck
    refine ⟨⟨fun _ => wellFormed_of_check hp hcheck, fun _ => ⟨_, hbuild⟩⟩, fun e he => ?_,
      fun vars' hvars => validate_ofProgram (hcheck.trans hvars)⟩
    rw [hbuild] at he
    cases he
  | error e =>
    have hviolation := violation_of_check hp hcheck
    have hbuild : build p = .error e := by
      rw [build, hcheck]
      rfl
    refine ⟨⟨?_, fun hwell => absurd hwell hviolation.not_wellFormed⟩, fun e' he => ?_,
      fun vars hvars => ?_⟩
    · rintro ⟨b, hb⟩
      rw [hbuild] at hb
      cases hb
    · rw [hbuild] at he
      cases he
      exact hviolation
    · cases hvars

/-- Indices inside indices, a record and a block behind `else`. -/
def nestedIndexText : Text.Bytes :=
  Text.toBytes ("int[3] xs; {int fst; int snd} r; int i; " ++
    "if (xs[xs[i] + r.fst] < 2) { xs[i] := r.snd; } else { read r.fst; }")

/-- An index inside an index names a variable that is declared later. -/
def lateIndexText : Text.Bytes := Text.toBytes "int[3] xs; xs[xs[i]] := 1; int i;"

/-- An index that is declared in time, and one that is not. -/
theorem build_accepts_wellFormed_indices :
    (∃ p, Source.parse nestedIndexText = .ok p ∧ WellFormed p) ∧
      ∃ p, Source.parse lateIndexText = .ok p ∧ ¬ WellFormed p ∧
        Violation p (.undeclared ⟨1, 18⟩ "i" .scalar) := by
  have haccepted : ((Source.parse nestedIndexText).toOption.bind fun p =>
      (build p).toOption).isSome = true := by decide +kernel
  have hrefused : ((Source.parse lateIndexText).toOption.map fun p =>
      decide (build p = .error (.undeclared ⟨1, 18⟩ "i" .scalar))) = some true := by decide +kernel
  constructor
  · cases hparse : Source.parse nestedIndexText with
    | error e =>
      rw [hparse] at haccepted
      cases haccepted
    | ok p =>
      rw [hparse] at haccepted
      refine ⟨p, rfl, (build_accepts_wellFormed hparse).1.mp ?_⟩
      cases hbuild : build p with
      | error e =>
        simp only [Except.toOption, Option.bind_some, hbuild] at haccepted
        cases haccepted
      | ok b => exact ⟨b, rfl⟩
  · cases hparse : Source.parse lateIndexText with
    | error e =>
      rw [hparse] at hrefused
      cases hrefused
    | ok p =>
      rw [hparse] at hrefused
      have hbuild : build p = .error (.undeclared ⟨1, 18⟩ "i" .scalar) :=
        of_decide_eq_true (Option.some.inj hrefused)
      obtain ⟨hiff, hviolation, -⟩ := build_accepts_wellFormed hparse
      refine ⟨p, rfl, fun hwell => ?_, hviolation _ hbuild⟩
      obtain ⟨b, hb⟩ := hiff.mpr hwell
      rw [hbuild] at hb
      cases hb

end MicroFlow
