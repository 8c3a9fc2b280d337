import MicroFlow.Proofs.Lowering.Figures
import MicroFlow.Proofs.Lowering.WellFormed

/-!
# The findings for a program

What is found in a program that was read from a text and has a graph: what is suspicious in its
statements, at any depth, and the variables that it never uses.
-/

namespace MicroFlow

namespace Source

/-! ## What there is to find -/

/-- The accesses in an expression, those in the index of an array before it. -/
def Arith.accesses : Arith → List Place
  | missing => []
  | num _ _ => []
  | access pos shape name index field =>
    (if shape = .array then index.accesses else []) ++ [⟨pos, shape, name, index, field⟩]
  | binary _ _ l r => l.accesses ++ r.accesses

/-- The accesses in a condition. -/
def Cond.accesses : Cond → List Place
  | missing => []
  | truth _ _ => []
  | rel _ _ l r => l.accesses ++ r.accesses
  | logic _ _ l r => l.accesses ++ r.accesses
  | not _ x => x.accesses

/-- The accesses in a statement, without those in the statements inside it. -/
def Stmt.accesses : Stmt → List Place
  | .missing => []
  | .assign _ target value => target.toList.flatMap (·.toArith.accesses) ++ value.accesses
  | .read _ target => target.toList.flatMap (·.toArith.accesses)
  | .write _ value => value.accesses
  | .ifThen _ cond _ => cond.accesses
  | .ifElse _ cond _ _ => cond.accesses
  | .loop _ cond _ => cond.accesses

/-- An access to an array whose index is a number outside of the declared length. -/
def Place.overrun? (vars : Variables) (x : Place) : Option Finding :=
  match x.shape, x.index with
  | .array, .num _ i => (vars.find? (·.name == x.name)).bind fun d =>
      if i < 0 ∨ d.length ≤ i then some (.outOfBounds x.pos i x.name d.length) else none
  | _, _ => none

/-- A branch or loop whose condition is a truth value. -/
def Stmt.decided? : Stmt → Option Finding
  | .ifThen pos (.truth _ b) _ => some (.constantCondition pos b)
  | .ifElse pos (.truth _ b) _ _ => some (.constantCondition pos b)
  | .loop pos (.truth _ b) _ => some (.constantCondition pos b)
  | _ => none

/-- The findings in a statement, without those in the statements inside it. -/
def Stmt.suspicions (vars : Variables) (s : Stmt) : List Finding :=
  s.decided?.toList ++ s.accesses.filterMap (Place.overrun? vars)

/-- Some access in the program names the variable. -/
def Uses (p : Program) (name : String) : Prop :=
  ∃ s ∈ programStatements true p, ∃ x ∈ s.accesses, x.name = name

instance (p : Program) (name : String) : Decidable (Uses p name) :=
  inferInstanceAs (Decidable (∃ s ∈ _, ∃ x ∈ _, _))

/-- A declaration of a variable that no access names. -/
def Item.idle? (p : Program) : Item → Option Finding
  | .declare pos shape name _ => if Uses p name then none else some (.unused pos shape.kind name)
  | _ => none

/-- The suspicions of all statements in a program, with the lengths that it declares. -/
def suspicions (p : Program) : List Finding :=
  (programStatements true p).flatMap (Stmt.suspicions (declarations p))

/-- The declared variables that are idle. -/
def idle (p : Program) : List Finding := p.filterMap (Item.idle? p)

/-! ## What is found -/

variable {vars : Variables} {p : Program} {f : Finding} {s : Stmt}

theorem Place.eq_of_overrun {x : Place} (h : x.overrun? vars = some f) :
    ∃ i length, f = .outOfBounds x.pos i x.name length := by
  unfold overrun? at h
  split at h
  next i _ _ =>
    obtain ⟨d, -, hd⟩ := Option.bind_eq_some_iff.mp h
    split at hd <;> cases hd
    exact ⟨i, d.length, rfl⟩
  next => cases h

theorem Stmt.eq_of_decided (h : s.decided? = some f) :
    ∃ pos value, f = .constantCondition pos value := by
  unfold decided? at h
  split at h <;> cases h <;> exact ⟨_, _, rfl⟩

def Place.located (x : Place) : Pos × Access := (x.pos, x.lower)

/-- The check of one access finds its overrun. -/
theorem boundsFinding?_located (x : Place) : boundsFinding? vars x.located = x.overrun? vars := by
  obtain ⟨pos, shape, name, index, field⟩ := x
  cases shape with
  | array =>
    cases index with
    | num _ i =>
      show boundsFinding? vars (pos, .element name (.literal i) none) =
        (vars.find? (·.name == name)).bind _
      rw [boundsFinding?]
      cases vars.find? (·.name == name) <;> rfl
    | access _ shape _ _ _ => cases shape <;> rfl
    | missing | binary => rfl
  | scalar | record | unknown => rfl

theorem boundsFindings_located (xs : List Place) :
    boundsFindings vars (xs.map Place.located) = xs.filterMap (Place.overrun? vars) := by
  rw [boundsFindings, List.filterMap_map]
  exact List.filterMap_congr fun x _ => boundsFinding?_located x

theorem Arith.places_eq (e : Arith) : e.places = e.accesses.map Place.located := by
  induction e with
  | access pos shape name index field ih =>
    cases shape <;> simp [places, accesses, Place.located, Place.lower, ih]
  | missing | num => rfl
  | binary _ _ l r ihl ihr => rw [places, accesses, List.map_append, ihl, ihr]

theorem Cond.places_eq (x : Cond) : x.places = x.accesses.map Place.located := by
  induction x with
  | missing | truth => rfl
  | rel _ _ l r => rw [places, accesses, List.map_append, l.places_eq, r.places_eq]
  | logic _ _ l r ihl ihr => rw [places, accesses, List.map_append, ihl, ihr]
  | not _ x ih => exact ih

theorem targetPlaces_eq (target : Option Place) : targetPlaces target =
    (target.toList.flatMap (·.toArith.accesses)).map Place.located := by
  cases target with
  | none => rfl
  | some x => simp [targetPlaces, Arith.places_eq]

/-- What is found where a statement decides: a condition that is a truth value has no accesses. -/
theorem Stmt.suspicions_eq {pos : Pos} {x : Cond} (hdecided : s.decided? = constantFinding? pos x)
    (haccesses : s.accesses = x.accesses) :
    boundsFindings vars x.places ++ (constantFinding? pos x).toList = s.suspicions vars := by
  rw [suspicions, hdecided, haccesses, x.places_eq, boundsFindings_located]
  cases x <;> simp [constantFinding?, Cond.accesses]

mutual

/-- The places of a statement are the accesses of its statements. -/
theorem Stmt.places_eq : ∀ s : Stmt,
    s.places = ((s.statements true).flatMap Stmt.accesses).map Place.located
  | .missing => rfl
  | .assign _ t e =>
    by simp [Stmt.places, Stmt.statements, Stmt.accesses, targetPlaces_eq, e.places_eq]
  | .read _ t => by simp [Stmt.places, Stmt.statements, Stmt.accesses, targetPlaces_eq]
  | .write _ e => by simp [Stmt.places, Stmt.statements, Stmt.accesses, e.places_eq]
  | .ifThen _ x b
  | .loop _ x b => by simp [Stmt.places, Stmt.statements, Stmt.accesses, x.places_eq, b.places_eq]
  | .ifElse _ x b c => by
    simp [Stmt.places, Stmt.statements, Stmt.accesses, x.places_eq, b.places_eq, c.places_eq]

theorem Block.places_eq : ∀ b : Block,
    b.places = ((b.statements true).flatMap Stmt.accesses).map Place.located
  | .nil => rfl
  | .cons s b => by simp [Block.places, Block.statements, s.places_eq, b.places_eq]

end

mutual

/-- The warnings are the suspicions of all statements. -/
theorem Stmt.warnings_eq (vars : Variables) : ∀ s : Stmt,
    s.warnings vars = (s.statements true).flatMap (Stmt.suspicions vars)
  | .missing => rfl
  | .assign _ t e => by
    simp [Stmt.warnings, Stmt.statements, Stmt.suspicions, Stmt.decided?, Stmt.accesses,
      targetPlaces_eq, e.places_eq, ← List.map_append, boundsFindings_located]
  | .read _ t => by
    simp [Stmt.warnings, Stmt.statements, Stmt.suspicions, Stmt.decided?, Stmt.accesses,
      targetPlaces_eq, boundsFindings_located]
  | .write _ e => by
    simp [Stmt.warnings, Stmt.statements, Stmt.suspicions, Stmt.decided?, Stmt.accesses,
      e.places_eq, boundsFindings_located]
  | .ifThen pos x b => by
    rw [Stmt.warnings, Stmt.suspicions_eq (s := .ifThen pos x b) (by cases x <;> rfl) rfl,
      b.warnings_eq vars]
    rfl
  | .ifElse pos x b c => by
    rw [Stmt.warnings, Stmt.suspicions_eq (s := .ifElse pos x b c) (by cases x <;> rfl) rfl,
      b.warnings_eq vars, c.warnings_eq vars, Stmt.statements, List.flatMap_cons,
        List.flatMap_append,
      List.append_assoc]
  | .loop pos x b => by
    rw [Stmt.warnings, Stmt.suspicions_eq (s := .loop pos x b) (by cases x <;> rfl) rfl,
      b.warnings_eq vars]
    rfl

theorem Block.warnings_eq (vars : Variables) : ∀ b : Block,
    b.warnings vars = (b.statements true).flatMap (Stmt.suspicions vars)
  | .nil => rfl
  | .cons s b => by
    rw [Block.warnings, Block.statements, List.flatMap_append, s.warnings_eq vars,
      b.warnings_eq vars]

end

/-- So are those of a whole program. -/
theorem programWarnings_eq (vars : Variables) (p : Program) :
    programWarnings vars p = (programStatements true p).flatMap (Stmt.suspicions vars) := by
  induction p with
  | nil => rfl
  | cons i p ih =>
    cases i with
    | stmt s => rw [programWarnings, programStatements, List.flatMap_append, s.warnings_eq, ih]
    | declare | expression | missing => exact ih

/-- The places of a program are the accesses of its statements. -/
theorem programPlaces_eq (p : Program) :
    programPlaces p = ((programStatements true p).flatMap Stmt.accesses).map Place.located := by
  induction p with
  | nil => rfl
  | cons i p ih =>
    cases i with
    | stmt s =>
      rw [programPlaces, programStatements, List.flatMap_append, List.map_append, s.places_eq, ih]
    | declare | expression | missing => exact ih

/-- The names that are collected are those that the program uses. -/
theorem mem_used_iff {name : String} : name ∈ (programPlaces p).map (·.2.name) ↔ Uses p name := by
  rw [programPlaces_eq, List.map_map, List.mem_map]
  simp only [List.mem_flatMap, Function.comp_apply, Place.located, Place.lower, name_accessOf, Uses]
  constructor
  · rintro ⟨x, ⟨s, hs, hx⟩, rfl⟩
    exact ⟨s, hs, x, hx, rfl⟩
  · rintro ⟨s, hs, x, hx, rfl⟩
    exact ⟨x, ⟨s, hs, hx⟩, rfl⟩

/-- What remains are the idle declarations. -/
theorem unusedFindings_eq {q : Program} (hq : Known q) :
    unusedFindings ((programPlaces p).map (·.2.name)) q = q.filterMap (Item.idle? p) := by
  induction q with
  | nil => rfl
  | cons i q ih =>
    replace ih := ih fun pos shape name length hmem =>
      hq pos shape name length (List.mem_cons_of_mem i hmem)
    cases i with
    | declare pos shape name length =>
      rw [unusedFindings, ih, List.filterMap_cons, Item.idle?,
        kind_declarationOf (hq pos shape name length List.mem_cons_self)]
      simp only [List.contains_iff_mem, mem_used_iff]
      split <;> rfl
    | stmt | expression | missing => exact ih

/-! ## Where it is found -/

/-- The findings stand at lexemes that lead from `a` to `b`, in their order. -/
def Within (fs : List Finding) (a b : Rest) : Prop :=
  ∃ c, a = c ++ b ∧ (fs.map Finding.pos).Sublist (c.map Located.pos)

section
variable {fs gs : List Finding} {a b c : Rest} {t : Located}

theorem within_of_suffix (h : b <:+ a) : Within [] a b := by
  obtain ⟨c, rfl⟩ := h
  exact ⟨c, rfl, List.nil_sublist _⟩

/-- Findings in two stretches of lexemes. -/
theorem Within.append (h : Within fs a b) (g : Within gs b c) : Within (fs ++ gs) a c := by
  obtain ⟨d, rfl, hd⟩ := h
  obtain ⟨e, rfl, he⟩ := g
  refine ⟨d ++ e, (List.append_assoc ..).symm, ?_⟩
  rw [List.map_append, List.map_append]
  exact hd.append he

/-- A finding at the first lexeme. -/
theorem Within.lead {f? : Option Finding} (h : Within fs a b) (hf : ∀ f ∈ f?, f.pos = t.pos) :
    Within (f?.toList ++ fs) (t :: a) b := by
  refine Within.append ⟨[t], rfl, ?_⟩ h
  cases f? with
  | none => exact List.nil_sublist _
  | some f => simp [hf f rfl]

theorem Within.cons (h : Within fs a b) : Within fs (t :: a) b :=
  show Within ((none : Option Finding).toList ++ fs) (t :: a) b from h.lead nofun

theorem Within.tail (h : Within fs a (t :: b)) : Within fs a b := by
  have happend := h.append (within_of_suffix (List.suffix_cons t b))
  rwa [List.append_nil] at happend

end

namespace Grammar

variable {a b : Rest}

/-- In the accesses of an expression an index stands before its array, and yet the findings are in
order: an index that is a number has no accesses. -/
theorem Expression.within (vars : Variables) {l : ArithLevel} {e : Arith} (h : Expression l a e b) :
    Within (e.accesses.filterMap (Place.overrun? vars)) a b := by
  induction h with
  | scalar => exact within_of_suffix (List.suffix_cons ..)
  | @element x p q r a b i _ _ ih =>
    have hsplit : (Arith.access p .array x i "").accesses.filterMap (Place.overrun? vars) =
        (Place.overrun? vars ⟨p, .array, x, i, ""⟩).toList ++
          i.accesses.filterMap (Place.overrun? vars) := by
      rw [Arith.accesses, if_pos rfl, List.filterMap_append]
      cases i with
      | num pos n =>
        cases h : Place.overrun? vars ⟨p, .array, x, .num pos n, ""⟩ <;>
          simp [Arith.accesses, h]
      | missing | access | binary => simp [Arith.accesses, Place.overrun?]
    rw [hsplit]
    refine ih.tail.cons.lead fun f hf => ?_
    obtain ⟨_, _, rfl⟩ := Place.eq_of_overrun hf
    rfl
  | field => exact within_of_suffix ((behind_cons _ _).cons.cons).suffix
  | number h => exact within_of_suffix h.behind.suffix
  | access _ ih => exact ih
  | parens _ ih => exact ih.tail.cons
  | one _ ih => exact ih
  | times _ _ _ ih ih' | plus _ _ _ ih ih' =>
    rw [Arith.accesses, List.filterMap_append]
    exact ih.tail.append ih'
  | single _ ih => exact ih

/-- The overruns of a condition stand at its lexemes. -/
theorem Condition.within (vars : Variables) {l : CondLevel} {x : Cond} (h : Condition l a x b) :
    Within (x.accesses.filterMap (Place.overrun? vars)) a b := by
  induction h with
  | yes | no => exact within_of_suffix (List.suffix_cons ..)
  | parens _ ih => exact ih.tail.cons
  | relation left _ right =>
    rw [Cond.accesses, List.filterMap_append]
    exact (left.within vars).tail.append (right.within vars)
  | plain _ ih => exact ih
  | not _ ih => exact ih.cons
  | one _ ih => exact ih
  | and _ _ ih ih' | or _ _ ih ih' =>
    rw [Cond.accesses, List.filterMap_append]
    exact ih.tail.append ih'
  | single _ ih => exact ih

/-- A statement that decides is found at its first lexeme, before what is found in its condition. -/
theorem Guard.within (vars : Variables) {s : Stmt} {pos : Pos} {l : Lexeme} {x : Cond}
    (h : Guard a x b)
    (hdecided : s.decided? = constantFinding? pos x) (haccesses : s.accesses = x.accesses) :
    Within (s.suspicions vars) (⟨l, pos⟩ :: a) b := by
  obtain ⟨h⟩ := h
  rw [Stmt.suspicions, hdecided, haccesses]
  refine (h.within vars).tail.cons.lead fun f hf => ?_
  cases x <;> cases hf
  rfl

mutual

/-- Along the grammar, the findings stand at lexemes in their order. -/
theorem Statement.within (vars : Variables) : ∀ {a b : Rest} {s : Stmt}, Statement a s b →
    Within ((s.statements true).flatMap (Stmt.suspicions vars)) a b
  | _, _, _, .assign h g => by
    simpa [Stmt.statements, Stmt.suspicions, Stmt.decided?, Stmt.accesses] using
      (h.within vars).tail.append (g.within vars).tail
  | _, _, _, .read h | _, _, _, .write h => by
    simpa [Stmt.statements, Stmt.suspicions, Stmt.decided?, Stmt.accesses] using
      (h.within vars).tail.cons
  | _, _, _, @Statement.ifThen p _ _ _ x body h g =>
    (h.within vars (s := .ifThen p x body) (by cases x <;> rfl) rfl).append (g.within vars)
  | _, _, _, @Statement.ifElse p _ _ _ _ _ x body other h g g' => by
    rw [Stmt.statements, List.flatMap_cons, List.flatMap_append]
    exact (h.within vars (by cases x <;> rfl) rfl).append
      ((g.within vars).tail.append (g'.within vars))
  | _, _, _, @Statement.loop p _ _ _ x body h g =>
    (h.within vars (s := .loop p x body) (by cases x <;> rfl) rfl).append (g.within vars)

theorem Block.within (vars : Variables) : ∀ {a b : Rest} {body : Source.Block}, Block a body b →
    Within ((body.statements true).flatMap (Stmt.suspicions vars)) a b
  | _, _, _, .braces h => (h.within vars).tail.cons

theorem Statements.within (vars : Variables) :
    ∀ {a b : Rest} {body : Source.Block}, Statements a body b →
    Within ((body.statements true).flatMap (Stmt.suspicions vars)) a b
  | _, _, _, .nil => within_of_suffix List.suffix_rfl
  | _, _, _, .cons h g => by
    rw [Block.statements, List.flatMap_append]
    exact (h.within vars).append (g.within vars)

end

/-- So they do in a whole program. -/
theorem Derives.within (vars : Variables) (h : Derives a p) :
    Within ((programStatements true p).flatMap (Stmt.suspicions vars)) a [] := by
  induction h with
  | nil => exact within_of_suffix List.suffix_rfl
  | declaration first _ ih =>
    have happend := (within_of_suffix first.behind.suffix).append ih
    cases first <;> exact happend
  | statement first _ ih =>
    rw [programStatements, List.flatMap_append]
    exact (first.within vars).append ih

end Grammar

/-- Lexemes ascend in the text, and so do the findings. -/
theorem Within.ascending {fs : List Finding} {a : Rest} (h : Within fs a [])
    (ha : a.Pairwise fun s t => s.pos.Before t.pos) : fs.Pairwise fun f g =>
    f.pos.Before g.pos := by
  obtain ⟨c, rfl, hsub⟩ := h
  rw [List.append_nil] at ha
  exact List.pairwise_map.mp ((List.pairwise_map.mpr ha).sublist hsub)

/-- Suspicions are warnings. -/
theorem severity_of_suspicions (h : f ∈ s.suspicions vars) : f.severity = "warning" := by
  rcases List.mem_append.mp h with h | h
  · obtain ⟨_, _, rfl⟩ := Stmt.eq_of_decided (Option.mem_toList.mp h)
    rfl
  · obtain ⟨x, -, hx⟩ := List.mem_filterMap.mp h
    obtain ⟨_, _, rfl⟩ := Place.eq_of_overrun hx
    rfl

/-- Idle declarations are remarks. -/
theorem severity_of_idle {i : Item} (h : i.idle? p = some f) : f.severity = "info" := by
  unfold Item.idle? at h
  split at h
  next =>
    split at h <;> cases h
    rfl
  next => cases h

end Source

open Source

/--
**The findings are exact.**  For a program that was read from a text and has a graph, there is first
a warning for each branch or loop, at any depth, whose condition is a truth value, and for each
access to an array, wherever it stands, whose index is a number outside of the declared length; they
come in the order of their places.  Then there is an information for each declared variable that no
access names, in the order of the declarations.
-/
theorem findings_of_build {src : Text.Bytes} {p : Program} {b : Built} (hparse : parse src = .ok p)
    (hbuild : build p = .ok b) : b.findings = suspicions p ++ idle p ∧
      (suspicions p).Pairwise (fun f g => f.pos.Before g.pos) ∧
      (∀ f ∈ suspicions p, f.severity = "warning") ∧ ∀ f ∈ idle p, f.severity = "info" := by
  obtain ⟨l, hlex, hderives⟩ := derives_of_parse hparse
  refine ⟨?_, (hderives.within _).ascending (ascending_of_lex hlex), fun f hf => ?_, fun f hf => ?_⟩
  · obtain ⟨vars, hcheck, -⟩ := build_eq_ok hbuild
    obtain ⟨rfl, -⟩ := nodup_of_check hcheck
    cases (build_of_check hcheck).symm.trans hbuild
    rw [findings, programWarnings_eq, unusedFindings_eq (known_of_written hderives.written)]
    rfl
  · obtain ⟨s, -, hs⟩ := List.mem_flatMap.mp hf
    exact severity_of_suspicions hs
  · obtain ⟨i, -, hi⟩ := List.mem_filterMap.mp hf
    exact severity_of_idle hi

/-- A decided loop around a decided branch, indices on both sides of the bounds, inside each other
and in targets, and variables that are not used, one of them with the name of a field. -/
def suspiciousText : Text.Bytes :=
  Text.toBytes ("int[3] xs; \x7bint fst; int snd\x7d r; int fst; int[2] ys; " ++
    "xs[3] := xs[-1] + r.fst; " ++
    "while (true) \x7b if (xs[xs[2]] < xs[xs[5]]) \x7b read xs[3]; \x7d " ++
    "else \x7b if (false) \x7b write xs[0]; \x7d \x7d \x7d")

def suspiciousFindings : List Finding :=
  [.outOfBounds ⟨1, 54⟩ 3 "xs" 3, .outOfBounds ⟨1, 63⟩ (-1) "xs" 3, .constantCondition ⟨1, 79⟩ true,
    .outOfBounds ⟨1, 113⟩ 5 "xs" 3, .outOfBounds ⟨1, 128⟩ 3 "xs" 3,
      .constantCondition ⟨1, 144⟩ false,
    .unused ⟨1, 34⟩ .scalar "fst", .unused ⟨1, 43⟩ .array "ys"]

theorem findings_of_build_suspicious : ∃ p b, parse suspiciousText = .ok p ∧ build p = .ok b ∧
    b.findings = suspicions p ++ idle p ∧ (suspicions p).Pairwise (fun f g => f.pos.Before g.pos) ∧
      b.findings = suspiciousFindings := by
  have hrun : (compile suspiciousText).toOption.map (·.findings) =
      some suspiciousFindings := by decide +kernel
  cases hcompile : compile suspiciousText with
  | error err =>
    rw [hcompile] at hrun
    cases hrun
  | ok b =>
    rw [hcompile] at hrun
    obtain ⟨p, hparse, hbuild⟩ := compile_eq_ok hcompile
    obtain ⟨hfindings, hascending, -⟩ := findings_of_build hparse hbuild
    exact ⟨p, b, hparse, hbuild, hfindings, hascending, Option.some.inj hrun⟩

end MicroFlow
