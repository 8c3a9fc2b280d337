import MicroFlow.Graph.Compile
import MicroFlow.Proofs.Graph.Coherent
import MicroFlow.Proofs.Lowering.Departures

/-!
# Built graphs

The graph of a program lists its arrows as edges, in order, and every point as a node.
Graphs that are built from programs are therefore coherent, and the check of the program
makes their actions well typed.
-/

namespace MicroFlow

/-! ## Graphs of arrows -/

/-- The positions where a property holds. -/
theorem Arrow.mem_positions {p : Arrow → Bool} {arrows : List Arrow} {i : Nat} :
    i ∈ Arrow.positions p arrows ↔ ∃ a, arrows[i]? = some a ∧ p a = true := by
  simp only [Arrow.positions, List.mem_map, List.mem_filter, Prod.exists]
  constructor
  · rintro ⟨a, j, ⟨hmem, hp⟩, rfl⟩
    exact ⟨a, by simpa using List.mem_zipIdx_iff_getElem?.mp hmem, hp⟩
  · rintro ⟨a, ha, hp⟩
    exact ⟨a, i, ⟨List.mem_zipIdx_iff_getElem?.mpr (by simpa using ha), hp⟩, rfl⟩

namespace Graph

variable {points finish : Nat} {arrows : List Arrow} {vars : Variables}

/-- The edge of an arrow at a position. -/
def edgeOf (i : Nat) (a : Arrow) : Edge :=
  { id := i, source := .listed a.source, target := .listed a.target, action := a.action }

theorem ofArrows_getElem? (i : Nat) :
    (ofArrows points arrows finish vars).edges[i]? = (arrows[i]?).map (edgeOf i) := by
  simp only [ofArrows, List.getElem?_toArray, List.getElem?_map, List.getElem?_zipIdx]
  cases arrows[i]? <;> simp [edgeOf]

/-- The edges are the arrows, numbered. -/
theorem mem_ofArrows {e : Edge} :
    e ∈ (ofArrows points arrows finish vars).edges ↔
      ∃ i a, arrows[i]? = some a ∧ e = edgeOf i a := by
  rw [Array.mem_iff_getElem?]
  simp only [ofArrows_getElem?, Option.map_eq_some_iff]
  constructor
  · rintro ⟨i, a, ha, rfl⟩
    exact ⟨i, a, ha, rfl⟩
  · rintro ⟨i, a, ha, rfl⟩
    exact ⟨i, a, ha, rfl⟩

@[simp] theorem ofArrows_size : (ofArrows points arrows finish vars).nodes.size = points := by
  simp [ofArrows]

/-- A node lists the arrows that leave and enter it, and only the end is terminal. -/
theorem ofArrows_nodeAt? {i : Nat} {n : Node}
    (h : (ofArrows points arrows finish vars).nodeAt? i = some n) :
    n.out = Arrow.positions (·.source == i) arrows ∧
      n.into = Arrow.positions (·.target == i) arrows ∧ (n.terminal = true ↔ i = finish) := by
  have hi : i < points := by simpa using lt_of_nodeAt? h
  simp only [nodeAt?, ofArrows, List.getElem?_toArray, List.getElem?_map,
    List.getElem?_range hi, Option.map_some, Option.join_some, Option.some.injEq] at h
  subst h
  exact ⟨rfl, rfl, beq_iff_eq⟩

/-- A valid graph of arrows is coherent. -/
theorem coherent_ofArrows (hfinish : finish < points)
    (hvalid : (ofArrows points arrows finish vars).validate = .ok ()) :
    (ofArrows points arrows finish vars).Coherent := by
  refine ⟨hvalid, ?_, ?_, ⟨finish, by simpa using hfinish, rfl⟩⟩
  · intro p n hn i
    rw [(ofArrows_nodeAt? hn).1, Arrow.mem_positions]
    simp only [ofArrows_getElem?, Option.map_eq_some_iff]
    constructor
    · rintro ⟨a, ha, hs⟩
      exact ⟨edgeOf i a, ⟨a, ha, rfl⟩, by simpa [edgeOf] using hs⟩
    · rintro ⟨e, ⟨a, ha, rfl⟩, hs⟩
      exact ⟨a, ha, by simpa [edgeOf] using hs⟩
  · intro p n hn i
    rw [(ofArrows_nodeAt? hn).2.1, Arrow.mem_positions]
    simp only [ofArrows_getElem?, Option.map_eq_some_iff]
    constructor
    · rintro ⟨a, ha, ht⟩
      exact ⟨edgeOf i a, ⟨a, ha, rfl⟩, by simpa [edgeOf] using ht⟩
    · rintro ⟨e, ⟨a, ha, rfl⟩, ht⟩
      exact ⟨a, ha, by simpa [edgeOf] using ht⟩

end Graph

/-! ## Types -/

variable {p : Program} {vars' : Variables} {b : Built}

namespace Source

/-- A checked expression is numeric. -/
theorem Arith.numeric_of_check {vars : Variables} {a : Arith} (h : a.check vars = .ok ()) :
    a.lower.numeric = true := by
  induction a with
  | missing => simp [Arith.check] at h
  | num pos n => rfl
  | access pos shape name index field ih =>
    cases shape with
    | scalar | record | unknown => rfl
    | array =>
      rw [Arith.check, check_bind_eq_ok] at h
      exact ih h.1
  | binary pos op l r ihl ihr =>
    obtain ⟨⟨op, rfl⟩, hl, hr⟩ := Arith.binary_of_check h
    simp [Arith.lower, Expr.numeric, ihl hl, ihr hr]

/-- A checked condition is logical. -/
theorem Cond.logical_of_check {vars : Variables} {c : Cond} (h : c.check vars = .ok ()) :
    c.lower.logical = true := by
  induction c with
  | missing => simp [Cond.check] at h
  | truth pos b => rfl
  | rel pos op l r =>
    obtain ⟨⟨op, rfl⟩, hl, hr⟩ := Cond.rel_of_check h
    simp [Cond.lower, Expr.logical, Arith.numeric_of_check hl, Arith.numeric_of_check hr]
  | logic pos op l r ihl ihr =>
    obtain ⟨hop, hl, hr⟩ := Cond.logic_of_check h
    rcases hop with rfl | rfl <;> simp [Cond.lower, Expr.logical, ihl hl, ihr hr]
  | not pos x ih => exact ih h

/-- A checked target is well typed. -/
theorem Place.wellTyped_of_check {vars : Variables} {target : Option Place}
    (h : checkTarget vars target = .ok ()) :
    (target.map Place.lower).all Access.wellTyped = true := by
  cases target with
  | none => rfl
  | some p =>
    obtain ⟨pos, shape, name, index, field⟩ := p
    have hn := Arith.numeric_of_check h
    cases shape with
    | array => exact hn
    | scalar | record | unknown => rfl

/-- The action of a checked part is well typed. -/
theorem Part.wellTyped_of_check {vars : Variables} {q : Part} (h : q.check vars = .ok ()) :
    q.action.wellTyped = true := by
  cases q with
  | assign target value =>
    rw [Part.check, check_bind_eq_ok] at h
    simp [Part.action, assignment, Action.wellTyped, Place.wellTyped_of_check h.1,
      Arith.numeric_of_check h.2]
  | read target => exact Place.wellTyped_of_check h
  | write value => exact Arith.numeric_of_check h
  | guard cond holds => cases holds <;> exact Cond.logical_of_check h

/-! ## Declarations -/

/-- A declaration that passes the check adds a new name, and the length of an array is positive. -/
theorem Item.declare_of_check {vars : Variables} {pos : Pos} {shape : Shape} {name : String}
    {length : Int} (h : (Item.declare pos shape name length).check vars = .ok vars') :
    (∀ d ∈ vars, d.name ≠ name) ∧ (shape = .array → 0 < length) ∧
      vars' = vars ++ [declarationOf shape name length] := by
  unfold Item.check at h
  by_cases hany : vars.any (·.name == name)
  · cases shape with
    | array =>
      simp only [hany] at h
      split at h <;> cases h
    | scalar | record | unknown =>
      simp only [hany] at h
      cases h
  · have hnew : ∀ d ∈ vars, d.name ≠ name := by simpa using hany
    simp only [hany] at h
    cases shape with
    | array =>
      simp only at h
      split at h
      · cases h
      · rename_i hlength
        cases h
        exact ⟨hnew, fun _ => by omega, rfl⟩
    | scalar | record =>
      cases h
      exact ⟨hnew, by simp, rfl⟩
    | unknown => cases h

/-- A declaration of a new name passes the check. -/
theorem Item.check_declare {vars : Variables} {pos : Pos} {shape : Shape} {name : String}
    {length : Int} (hshape : ∀ kind, shape ≠ .unknown kind) (hnew : ∀ d ∈ vars, d.name ≠ name)
    (hlength : shape = .array → 0 < length) :
    (Item.declare pos shape name length).check vars =
      .ok (vars ++ [declarationOf shape name length]) := by
  have hany : vars.any (·.name == name) = false := by simpa using hnew
  unfold Item.check
  simp only [hany]
  cases shape with
  | scalar | record => rfl
  | array =>
    have hpositive : ¬ length ≤ 0 := by
      have := hlength rfl
      omega
    simp only [if_neg hpositive]
    rfl
  | unknown kind => exact absurd rfl (hshape kind)

theorem Item.vars_of_check {vars : Variables} {s : Stmt}
    (h : (Item.stmt s).check vars = .ok vars') :
    vars' = vars := by
  cases s with
  | missing => simp [Item.check] at h
  | assign | read | write | ifThen | ifElse | loop =>
    simp only [Item.check, bind_eq_ok] at h
    obtain ⟨_, -, h⟩ := h
    cases h
    rfl

end Source

/-- Every name is declared once, with one of the three kinds of variables. -/
structure Variables.Plain (vars : Variables) : Prop where
  names : (vars.map Declaration.name).Nodup
  kinds : ∀ d ∈ vars, d.kind ≠ .unknown

namespace Source

/-- Checked declarations are plain, by induction on the items. -/
theorem plain_of_checkProgram {vars : Variables}
    (h : checkProgram vars p = .ok vars') (hvars : vars.Plain) : vars'.Plain := by
  induction p generalizing vars with
  | nil =>
    cases h
    exact hvars
  | cons i rest ih =>
    rw [checkProgram, bind_eq_ok] at h
    obtain ⟨vars₁, hi, hrest⟩ := h
    refine ih hrest ?_
    cases i with
    | declare pos shape name length =>
      obtain ⟨hnew, -, rfl⟩ := Item.declare_of_check hi
      have hname : (declarationOf shape name length).name = name := by cases shape <;> rfl
      have hkind : (declarationOf shape name length).kind ≠ .unknown := by
        cases shape <;> simp [declarationOf]
      refine ⟨?_, fun d hd => ?_⟩
      · rw [List.map_append, List.nodup_append]
        refine ⟨hvars.names, by simp, fun a ha b hb => ?_⟩
        obtain ⟨d, hd, rfl⟩ := List.mem_map.mp ha
        simp only [List.map_cons, List.map_nil, List.mem_singleton, hname] at hb
        rw [hb]
        exact hnew d hd
      · rcases List.mem_append.mp hd with hd | hd
        · exact hvars.kinds d hd
        · rw [List.mem_singleton.mp hd]
          exact hkind
    | stmt s =>
      rw [Item.vars_of_check hi]
      exact hvars
    | expression form => simp [Item.check] at hi
    | missing => simp [Item.check] at hi

end Source

/-! ## Building -/

open Source

/-- A program tree has a graph when it passes the check and its graph passes validation. -/
theorem build_eq_ok (h : build p = .ok b) :
    ∃ vars, checkProgram [] p = .ok vars ∧ b.graph = .ofProgram vars p ∧
      b.graph.validate = .ok () := by
  rw [build, bind_eq_ok] at h
  obtain ⟨vars, hvars, h⟩ := h
  dsimp only at h
  split at h
  · cases h
  · rename_i hv
    cases h
    exact ⟨vars, hvars, rfl, hv⟩

/-- A source text that compiles is a program tree that has a graph. -/
theorem compile_eq_ok {src : Text.Bytes} (h : compile src = .ok b) :
    ∃ p, Source.parse src = .ok p ∧ build p = .ok b := by
  unfold compile at h
  split at h
  · cases h
  · rename_i p hp
    split at h
    · cases h
    · rename_i b' hb
      cases h
      exact ⟨p, hp, hb⟩

/-- Every program tree that has a graph has a coherent one. -/
theorem coherent_of_build (h : build p = .ok b) : b.graph.Coherent := by
  obtain ⟨vars, hvars, hg, hv⟩ := build_eq_ok h
  rw [hg] at hv ⊢
  exact Graph.coherent_ofArrows (lowerProgram_finish_lt (checked_of_checkProgram hvars)) hv

/-- Its nodes branch on one condition at most. -/
theorem branching_of_build (h : build p = .ok b) : b.graph.Branching := by
  obtain ⟨vars, hvars, hg, -⟩ := build_eq_ok h
  have hp := checked_of_checkProgram hvars
  rw [hg]
  refine ⟨fun i j e f q hij he hf hse hsf => ?_, fun e he => ?_⟩
  · rw [Graph.ofProgram, Graph.ofArrows_getElem?, Option.map_eq_some_iff] at he hf
    obtain ⟨a, ha, rfl⟩ := he
    obtain ⟨a', ha', rfl⟩ := hf
    cases hse
    have hs : a'.source = a.source := by simpa [Graph.edgeOf] using hsf
    obtain ⟨hlt, hne⟩ := (lowerProgram_departs_iff hp).mp ⟨a, List.mem_of_getElem? ha, rfl⟩
    obtain ⟨t, u, c, hx, hy⟩ := (lowerProgram_departures hp hlt hne).pair hij ha ha' rfl hs
    exact ⟨c, congrArg Arrow.action hx, congrArg Arrow.action hy⟩
  · obtain ⟨i, a, ha, rfl⟩ := Graph.mem_ofArrows.mp he
    intro heq
    have hne := lowerProgram_source_ne hp (List.mem_of_getElem? ha)
    simp only [Graph.edgeOf, Graph.ofProgram, Graph.ofArrows, Endpoint.listed.injEq] at heq
    exact hne heq

theorem plain_of_build (h : build p = .ok b) : b.graph.vars.Plain := by
  obtain ⟨vars, hvars, hg, -⟩ := build_eq_ok h
  rw [hg]
  exact plain_of_checkProgram hvars ⟨by simp, by simp⟩

/-- It is well typed. -/
theorem wellTyped_of_build (h : build p = .ok b) : b.graph.WellTyped := by
  obtain ⟨vars, hvars, hg, -⟩ := build_eq_ok h
  rw [hg]
  intro e he
  obtain ⟨i, a, ha, rfl⟩ := Graph.mem_ofArrows.mp he
  rcases action_of_checkProgram hvars a (List.mem_of_getElem? ha) with ⟨d, hd⟩ | ⟨q, vars', hq, hqa⟩
  · simp only [Graph.edgeOf, hd]
    rfl
  · simp only [Graph.edgeOf, hqa]
    exact Part.wellTyped_of_check hq

end MicroFlow
