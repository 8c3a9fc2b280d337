import MicroFlow.Proofs.Flow.Variables
import MicroFlow.Proofs.Lowering.Built

/-!
# Checked programs have valid graphs

The check of a program is all that stands between its tree and its graph.  `Graph.validate` runs
over the graph once more, and never finds anything (`validate_ofProgram`): the points are numbered
from the entry on, one of them is the last, the arrows run between points, and the parts of the
program, which the check has looked at one by one, become actions that lack nothing and use
declared variables (`Part.validate_of_check`, `Part.declared_of_check`).

What is declared at an arrow are the declarations on the arrows before it
(`lowerProgram_scoped`); later declarations do not hide them (`Variables.of_append`).
-/

namespace MicroFlow

variable {i : Nat} {p : Program}

/-- A variable that is found is found among more. -/
theorem Variables.of_append {vars : Variables} {a : Access} (h : vars.of a = some i)
    (more : Variables) : Variables.of (vars ++ more) a = some i := by
  obtain ⟨d, hd, -, hkind, hfind⟩ := Variables.of_eq_some h
  have hlt : i < vars.length := (List.getElem?_eq_some_iff.mp hd).1
  unfold Variables.of Variables.lookup
  rw [List.findIdx?_append, hfind]
  simp only [Option.some_or]
  rw [List.getElem?_append_left hlt, hd, if_pos (by simp [hkind])]

/-- Later declarations do not take variables away. -/
theorem Action.Declared.append {vars : Variables} {a : Action} (h : a.Declared vars)
    (more : Variables) : a.Declared (vars ++ more) := by
  intro x hx
  obtain ⟨i, hi⟩ := h x hx
  exact ⟨i, Variables.of_append hi more⟩

namespace Source

/-! ## Parts -/

theorem Arith.lower_ne_missing {vars : Variables} {a : Arith} (h : a.check vars = .ok ()) :
    a.lower ≠ .missing := by
  intro hmissing
  have hnumeric := Arith.numeric_of_check h
  rw [hmissing] at hnumeric
  cases hnumeric

theorem Cond.lower_ne_missing {vars : Variables} {c : Cond} (h : c.check vars = .ok ()) :
    c.lower ≠ .missing := by
  intro hmissing
  have hlogical := Cond.logical_of_check h
  rw [hmissing] at hlogical
  cases hlogical

/-- What a checked access refers to is declared, and so is what its index refers to. -/
theorem Arith.access_of_check {vars : Variables} {pos : Pos} {shape : Shape} {name field : String}
    {index : Arith} (h : (Arith.access pos shape name index field).check vars = .ok ()) :
    (∃ i, vars.of (accessOf shape name index.lower field) = some i) ∧
      (shape = .array → index.check vars = .ok ()) ∧
      (shape = .record → (Selector.ofName? field).isSome = true) ∧ ∀ kind,
      shape ≠ .unknown kind := by
  have hof : ∀ {a : Access} {e : BuildError},
      (if (vars.of a).isNone then (.error e : Except BuildError Unit) else .ok ()) = .ok () →
      ∃ i, vars.of a = some i := by
    intro a e ha
    cases hi : vars.of a with
    | none => simp [hi] at ha
    | some i => exact ⟨i, rfl⟩
  unfold Arith.check at h
  cases shape with
  | scalar => exact ⟨hof h, by simp, by simp, by simp⟩
  | array =>
    rw [check_bind_eq_ok] at h
    exact ⟨hof h.2, fun _ => h.1, by simp, by simp⟩
  | record =>
    cases hsel : (Selector.ofName? field).isNone with
    | true => simp [hsel, bind, Except.bind] at h
    | false =>
      simp only [hsel] at h
      exact ⟨hof h, by simp, fun _ => by simpa using hsel, by simp⟩
  | unknown kind => simp [bind, Except.bind] at h

/-- A checked expression mentions declared variables only. -/
theorem Arith.declared_of_check {vars : Variables} {a : Arith} (h : a.check vars = .ok ()) :
    ∀ x ∈ a.lower.accesses, ∃ i, vars.of x = some i := by
  induction a with
  | missing => simp [Arith.check] at h
  | num pos n => simp [Arith.lower, Expr.accesses]
  | access pos shape name index field ih =>
    obtain ⟨hdecl, hindex, -, hknown⟩ := Arith.access_of_check h
    cases shape with
    | scalar | record =>
      intro x hx
      rw [List.mem_singleton.mp hx]
      exact hdecl
    | array =>
      intro x hx
      rcases List.mem_cons.mp hx with rfl | hx
      · exact hdecl
      · exact ih (hindex rfl) x hx
    | unknown kind => exact absurd rfl (hknown kind)
  | binary pos op l r ihl ihr =>
    obtain ⟨⟨op, rfl⟩, hl, hr⟩ := Arith.binary_of_check h
    intro x hx
    exact (List.mem_append.mp hx).elim (ihl hl x) (ihr hr x)

/-- So does a checked condition. -/
theorem Cond.declared_of_check {vars : Variables} {c : Cond} (h : c.check vars = .ok ()) :
    ∀ x ∈ c.lower.accesses, ∃ i, vars.of x = some i := by
  induction c with
  | missing => simp [Cond.check] at h
  | truth pos b => simp [Cond.lower, Expr.accesses]
  | rel pos op l r =>
    obtain ⟨⟨op, rfl⟩, hl, hr⟩ := Cond.rel_of_check h
    intro x hx
    exact (List.mem_append.mp hx).elim (Arith.declared_of_check hl x) (Arith.declared_of_check hr x)
  | logic pos op l r ihl ihr =>
    obtain ⟨hop, hl, hr⟩ := Cond.logic_of_check h
    intro x hx
    have hx' : x ∈ l.lower.accesses ++ r.lower.accesses := by
      rcases hop with rfl | rfl <;> exact hx
    exact (List.mem_append.mp hx').elim (ihl hl x) (ihr hr x)
  | not pos x ih =>
    intro y hy
    have hy' : y ∈ x.lower.accesses := by
      simpa [Cond.lower, Expr.negation, Expr.accesses] using hy
    exact ih h y hy'

/-- A checked target is there and declared, with what its index refers to. -/
theorem Place.declared_of_check {vars : Variables} {target : Option Place}
    (h : checkTarget vars target = .ok ()) :
    ∃ p, target = some p ∧ (∃ i, vars.of p.lower = some i) ∧
      ∀ x ∈ p.lower.index.accesses, ∃ i, vars.of x = some i := by
  cases target with
  | none => simp [checkTarget] at h
  | some p =>
    obtain ⟨pos, shape, name, index, field⟩ := p
    obtain ⟨hdecl, hindex, -, -⟩ := Arith.access_of_check h
    refine ⟨_, rfl, hdecl, ?_⟩
    cases shape with
    | array => exact Arith.declared_of_check (hindex rfl)
    | scalar | record | unknown =>
      intro x hx
      simp [Place.lower, accessOf, Access.index, Expr.accesses] at hx

/-- The action of a checked part is valid. -/
theorem Part.validate_of_check {vars : Variables} {p : Part} (h : p.check vars = .ok ()) :
    p.action.validate = .ok () := by
  cases p with
  | assign target value =>
    rw [Part.check, check_bind_eq_ok] at h
    obtain ⟨p, rfl, -⟩ := Place.declared_of_check h.1
    simp [Part.action, assignment, Action.validate, Action.lacking?, Arith.lower_ne_missing h.2]
  | read target =>
    obtain ⟨p, rfl, -⟩ := Place.declared_of_check h
    simp [Part.action, Action.validate, Action.lacking?]
  | write value =>
    simp [Part.action, Action.write, Action.validate, Action.lacking?, Arith.lower_ne_missing h]
  | guard cond holds =>
    cases holds with
    | true =>
      simp [Part.action, Action.branch, Action.validate, Action.lacking?, Cond.lower_ne_missing h]
    | false => simp [Part.action, Action.branch, Action.validate, Action.lacking?, Expr.negation]

theorem uses_target {kind : ActionKind} {t : Access} {value : Expr} {x : Access}
    (h : x ∈ Action.uses { kind, target := some t, value }) :
    x ∈ Action.uses { kind, value } ∨ x ∈ t.index.accesses := by
  cases t with
  | element y i l => simpa [Action.uses, Access.index] using h
  | scalar | field | odd => exact .inl h

/-- Its variables are declared. -/
theorem Part.declared_of_check {vars : Variables} {p : Part} (h : p.check vars = .ok ()) :
    p.action.Declared vars := by
  intro x hx
  -- an action mentions its value, the index of its target, and the target itself
  cases p with
  | assign target value =>
    rw [Part.check, check_bind_eq_ok] at h
    obtain ⟨p, rfl, hp, hindex⟩ := Place.declared_of_check h.1
    rcases List.mem_append.mp hx with hx | hx
    · rcases uses_target hx with hx | hx
      · exact Arith.declared_of_check h.2 x (by simpa [Action.uses] using hx)
      · exact hindex x hx
    · rw [List.mem_singleton.mp hx]
      exact hp
  | read target =>
    obtain ⟨p, rfl, hp, hindex⟩ := Place.declared_of_check h
    rcases List.mem_append.mp hx with hx | hx
    · rcases uses_target hx with hx | hx
      · simp [Action.uses] at hx
      · exact hindex x hx
    · rw [List.mem_singleton.mp hx]
      exact hp
  | write value =>
    exact Arith.declared_of_check h x (by simpa [Part.action, Action.write, Action.uses,
      Action.defines] using hx)
  | guard cond holds =>
    refine Cond.declared_of_check h x ?_
    cases holds with
    | true => simpa [Part.action, Action.branch, Action.uses, Action.defines] using hx
    | false =>
      simpa [Part.action, Action.branch, Action.uses, Action.defines, Expr.negation,
        Expr.accesses] using hx

theorem Part.decl_action (p : Part) : p.action.decl = none := by
  cases p with
  | guard cond holds => cases holds <;> rfl
  | assign | read | write => rfl

end Source

/-! ## Declarations along the arrows -/

/-- The variables that the first arrows declare. -/
def Arrow.declared (arrows : List Arrow) (k : Nat) : Variables :=
  (arrows.take k).filterMap (·.action.decl)

namespace Source

/-- Statements declare nothing. -/
theorem Stmt.decl_lower (s : Stmt) (source : Nat) (to? : Option Nat) (next : Nat) :
    ∀ a ∈ (s.lower source to? next).arrows, a.action.decl = none := by
  intro a ha
  have hmem : a.action ∈ (s.lower source to? next).arrows.map Arrow.action := List.mem_map_of_mem ha
  rw [Stmt.actions_lower] at hmem
  obtain ⟨p, -, hp⟩ := List.mem_map.mp hmem
  rw [← hp]
  exact p.decl_action

variable {vars' : Variables}

/-- An item adds the variables that its arrows declare. -/
theorem Item.vars_lower {i : Item} {vars : Variables} (h : i.check vars = .ok vars')
    (source next : Nat) :
    vars' = vars ++ (i.lower source next).arrows.filterMap (·.action.decl) := by
  cases i with
  | declare pos shape name length =>
    obtain ⟨-, -, rfl⟩ := Item.declare_of_check h
    rfl
  | stmt s =>
    have hnone : (s.lower source none next).arrows.filterMap (·.action.decl) = [] :=
      List.filterMap_eq_nil_iff.mpr (Stmt.decl_lower s source none next)
    rw [Item.lower, hnone, List.append_nil]
    exact Item.vars_of_check h
  | expression form => simp [Item.check] at h
  | missing => simp [Item.check] at h

/-- No arrow of an item stands behind a declaration of the same item. -/
theorem Item.declared_lower {i : Item} {vars : Variables} (h : i.check vars = .ok vars')
    (source next : Nat) {k : Nat} (hk : k < (i.lower source next).arrows.length) :
    Arrow.declared (i.lower source next).arrows k = [] := by
  cases i with
  | declare pos shape name length =>
    have hk' : k < 1 := hk
    obtain rfl : k = 0 := by omega
    rfl
  | stmt s =>
    refine List.filterMap_eq_nil_iff.mpr fun a ha => ?_
    exact Stmt.decl_lower s source none next a (List.mem_of_mem_take ha)
  | expression form => simp [Item.check] at h
  | missing => simp [Item.check] at h

/-- The check only adds variables. -/
theorem checkProgram_extends {vars : Variables}
    (h : checkProgram vars p = .ok vars') : vars <+: vars' := by
  induction p generalizing vars with
  | nil =>
    cases h
    exact List.prefix_rfl
  | cons i rest ih =>
    rw [checkProgram, bind_eq_ok] at h
    obtain ⟨vars₁, hi, hrest⟩ := h
    have hfirst := Item.vars_lower hi 0 1
    exact (hfirst ▸ List.prefix_append _ _ : vars <+: vars₁).trans (ih hrest)

/--
What holds of all declarations of a checked program, and of all parts of its statements that
pass the check, holds of the actions on its arrows.  The property may depend on what is declared
on the arrows before.
-/
theorem lowerProgram_scoped {P : Variables → Action → Prop} {vars : Variables}
    (h : checkProgram vars p = .ok vars')
    (hdeclare : ∀ (vars vars' : Variables) (pos : Pos) (shape : Shape) (name : String)
      (length : Int),
      .declare pos shape name length ∈ p →
      (Item.declare pos shape name length).check vars = .ok vars' →
      P vars (.declare (declarationOf shape name length)))
    (hpart : ∀ (vars : Variables) (s : Stmt), .stmt s ∈ p → ∀ q ∈ s.parts, q.check vars = .ok () →
      P vars q.action)
    (source next : Nat) {k : Nat} {a : Arrow}
    (ha : (lowerProgram source next p).arrows[k]? = some a) :
    P (vars ++ Arrow.declared (lowerProgram source next p).arrows k) a.action ∧
      vars ++ Arrow.declared (lowerProgram source next p).arrows k <+: vars' := by
  -- along the items, with the variables that are declared before
  induction p generalizing vars source next k with
  | nil => simp [lowerProgram] at ha
  | cons i rest ih =>
    rw [checkProgram, bind_eq_ok] at h
    obtain ⟨vars₁, hi, hrest⟩ := h
    have hfirst := Item.vars_lower hi source next
    rw [lowerProgram] at ha ⊢
    simp only at ha ⊢
    generalize hlater : lowerProgram (i.lower source next).finish (i.lower source next).next rest =
      later at ha ⊢
    by_cases hk : k < (i.lower source next).arrows.length
    · -- an arrow of the first item: nothing is declared in front of it
      have hnone := Item.declared_lower hi source next hk
      rw [List.getElem?_append_left hk] at ha
      rw [Arrow.declared, List.take_append_of_le_length (by omega)]
      rw [Arrow.declared] at hnone
      rw [hnone, List.append_nil]
      have hmem := List.mem_of_getElem? ha
      refine ⟨?_, ?_⟩
      · cases i with
        | declare pos shape name length =>
          rw [List.mem_singleton.mp hmem]
          exact hdeclare vars vars₁ pos shape name length (List.mem_cons_self ..) hi
        | stmt s =>
          have haction : a.action ∈ s.parts.map Part.action := by
            rw [← Stmt.actions_lower s source none next]
            exact List.mem_map_of_mem hmem
          obtain ⟨q, hq, hqa⟩ := List.mem_map.mp haction
          rw [← hqa]
          exact hpart vars s (List.mem_cons_self ..) q hq
            (Stmt.check_parts (Item.check_stmt hi) q hq)
        | expression form => simp [Item.check] at hi
        | missing => simp [Item.check] at hi
      · exact (hfirst ▸ List.prefix_append _ _ : vars <+: vars₁).trans
          (checkProgram_extends hrest)
    · -- an arrow of a later item: what the first one declares comes before
      have hle : (i.lower source next).arrows.length ≤ k := by omega
      rw [List.getElem?_append_right hle] at ha
      have hdecl : vars ++ Arrow.declared ((i.lower source next).arrows ++ later.arrows) k =
          vars₁ ++ Arrow.declared later.arrows (k - (i.lower source next).arrows.length) := by
        rw [Arrow.declared, Arrow.declared, List.take_append, List.take_of_length_le hle,
          List.filterMap_append, ← List.append_assoc, ← hfirst]
      rw [hdecl, ← hlater]
      refine ih hrest (fun vars vars' pos shape name length hmem => ?_) (fun vars s hmem => ?_) _ _
        (by rw [hlater]; exact ha)
      · exact hdeclare vars vars' pos shape name length (List.mem_cons_of_mem _ hmem)
      · exact hpart vars s (List.mem_cons_of_mem _ hmem)

end Source

/-! ## Validation -/

namespace Graph

/-- The edges pass if each of them does. -/
theorem checkEdges_of_checkEdge {g : Graph} {slot : Nat} {edges : List Edge}
    (h : ∀ (i : Nat) (e : Edge), edges[i]? = some e → g.checkEdge (slot + i) e = .ok ()) :
    g.checkEdges slot edges = .ok () := by
  induction edges generalizing slot with
  | nil => rfl
  | cons e rest ih =>
    rw [checkEdges, check_bind_eq_ok]
    refine ⟨h 0 e rfl, ih fun i f hf => ?_⟩
    rw [Nat.add_assoc, Nat.add_comm 1 i]
    exact h (i + 1) f hf

variable {points : Nat} (arrows : List Arrow) (finish : Nat) (vars : Variables)

/-- The node of a point. -/
def nodeOf (i : Nat) : Node where
  id := i
  terminal := i == finish
  out := Arrow.positions (·.source == i) arrows
  into := Arrow.positions (·.target == i) arrows

theorem ofArrows_nodes (hi : i < points) :
    (ofArrows points arrows finish vars).nodes[i]? = some (some (nodeOf arrows finish i)) := by
  simp [ofArrows, nodeOf, hi]

theorem ofArrows_nodeAt (hi : i < points) :
    (ofArrows points arrows finish vars).nodeAt i = .ok (nodeOf arrows finish i) := by
  rw [nodeAt_eq_ok, nodeAt?, ofArrows_nodes arrows finish vars hi]
  rfl

/-- One point is the end. -/
theorem ofArrows_terminalCount {finish : Nat} (hfinish : finish < points) :
    (ofArrows points arrows finish vars).terminalCount = 1 := by
  have hfilter : (ofArrows points arrows finish vars).terminalCount =
      (List.range points).count finish := by
    simp only [terminalCount, ofArrows, List.filter_map, List.length_map, List.count,
      List.countP_eq_length_filter]
    rfl
  rw [hfilter, List.count_eq_one_of_mem List.nodup_range (List.mem_range.mpr hfinish)]

theorem checkEnd_ofArrows (hi : i < points) :
    (ofArrows points arrows finish vars).checkEnd (.listed i) = .ok () := by
  rw [checkEnd, bind_eq_ok]
  refine ⟨nodeOf arrows finish i, ?_, ?_⟩
  · rw [endNode, ofArrows_nodeAt arrows finish vars hi, checked]
  rw [if_pos ⟨by simp [nodeOf], by simpa [nodeOf] using hi, by simp [nodeOf]⟩]

/-- A graph of arrows between points, with actions that lack nothing and use declared variables,
passes validation. -/
theorem validate_ofArrows {arrows : List Arrow} {finish : Nat} {vars : Variables}
    (hfinish : finish < points)
    (hends : ∀ a ∈ arrows, a.source < points ∧ a.target < points)
    (haction : ∀ a ∈ arrows, a.action.validate = .ok () ∧ a.action.Declared vars) :
    (ofArrows points arrows finish vars).validate = .ok () := by
  rw [validate, check_bind_eq_ok, bind_eq_ok]
  refine ⟨?_, nodeOf arrows finish finish, ?_, ?_⟩
  · refine checkNodes_eq_ok.mpr fun i hi => ?_
    have hi' : i < points := by simpa [ofArrows] using hi
    exact ⟨nodeOf arrows finish i, by simpa using ofArrows_nodes arrows finish vars hi', by
      simp [nodeOf]⟩
  · show checked ((ofArrows points arrows finish vars).nodeAt finish) = .ok
      (nodeOf arrows finish finish)
    rw [ofArrows_nodeAt arrows finish vars hfinish, checked]
  · rw [ofArrows_terminalCount arrows vars hfinish, if_neg (by simp [nodeOf])]
    refine checkEdges_of_checkEdge fun i e he => ?_
    have he' : (ofArrows points arrows finish vars).edges[i]? = some e := by simpa using he
    rw [ofArrows_getElem?, Option.map_eq_some_iff] at he'
    obtain ⟨a, ha, rfl⟩ := he'
    have hmem := List.mem_of_getElem? ha
    unfold checkEdge
    rw [if_neg (by simp [edgeOf]), check_bind_eq_ok, check_bind_eq_ok]
    refine ⟨checkEnd_ofArrows _ _ _ (hends a hmem).1, checkEnd_ofArrows _ _ _ (hends a hmem).2, ?_⟩
    have hvalid : (edgeOf i a).action.validate = .ok () := (haction a hmem).1
    rw [hvalid]
    refine forM_eq_ok.mpr fun x hx => ?_
    obtain ⟨j, hj⟩ := (haction a hmem).2 x hx
    have hj' : (ofArrows points arrows finish vars).vars.of x = some j := hj
    rw [checkAccess, hj']

end Graph

open Source

/-- The graph of a checked program is valid. -/
theorem validate_ofProgram {vars : Variables} (h : checkProgram [] p = .ok vars) :
    (Graph.ofProgram vars p).validate = .ok () := by
  have hp := checked_of_checkProgram h
  refine Graph.validate_ofArrows (lowerProgram_finish_lt hp) (fun a ha => ?_) fun a ha => ?_
  · exact ⟨((lowerProgram_departs_iff hp).mp ⟨a, ha, rfl⟩).1, lowerProgram_target_lt hp ha⟩
  · obtain ⟨k, hk⟩ := List.mem_iff_getElem?.mp ha
    obtain ⟨⟨hvalid, hdeclared⟩, more, hmore⟩ := lowerProgram_scoped
      (P := fun scope action => action.validate = .ok () ∧ action.Declared scope) h
      (fun _ _ _ _ _ _ _ _ => ⟨rfl, by simp [Action.Declared, Action.declare, Action.uses,
        Action.defines]⟩)
      (fun _ _ _ _ _ hq => ⟨Part.validate_of_check hq, Part.declared_of_check hq⟩) 0 1 hk
    rw [← hmore]
    exact ⟨hvalid, hdeclared.append more⟩

/-- So a program that passes the check has a graph. -/
theorem build_of_check {vars : Variables} (h : checkProgram [] p = .ok vars) :
    build p = .ok ⟨.ofProgram vars p, findings vars p⟩ := by
  rw [build, h]
  simp only [bind, Except.bind, validate_ofProgram h]
  rfl

end MicroFlow
