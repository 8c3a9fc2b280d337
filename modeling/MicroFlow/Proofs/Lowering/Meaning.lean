import MicroFlow.Proofs.Lowering.Built
import MicroFlow.Proofs.Semantics.Structured

/-!
# Lowering preserves meaning

The graph of a program does what the program says.  Structured execution from a
configuration ends in another one exactly when the graph has a run from its entry to
its exit that does, and the graph leaves no choice: at most one edge that leaves a node
can be performed.
-/

namespace MicroFlow

variable {V : Type} {A : Arithmetic V} {vars : Variables} {c d : Config V} {n t : Nat} {p : Program}

namespace Source

/-! ## Expressions -/

/-- The access of a shape, a name and a field refers to the cell that they stand for. -/
theorem locate?_accessOf (s : Store V) (shape : Shape) (name : String) (index : Expr)
    (field : String) :
    (accessOf shape name index field).locate? A vars s =
      cellOf? A vars shape name field (index.value? A vars s) := by
  cases shape with
  | scalar | array | unknown => rfl
  | record =>
    by_cases hfst : field = "fst"
    · subst hfst
      rfl
    by_cases hsnd : field = "snd"
    · subst hsnd
      rfl
    simp [accessOf, cellOf?, Selector.ofName?, Access.locate?]

/-- Lowering an arithmetic expression keeps its value. -/
theorem Arith.value?_lower (s : Store V) (a : Arith) :
    a.lower.value? A vars s = a.value? A vars s := by
  induction a with
  | missing | num => rfl
  | access pos shape name index field ih =>
    rw [Arith.lower, Access.value?_toExpr, locate?_accessOf, ih, Arith.value?]
  | binary pos op l r ihl ihr =>
    cases op <;> simp [Arith.lower, Arith.value?, Expr.value?, ihl, ihr]

/-- Lowering a checked condition keeps its truth. -/
theorem Cond.truth?_lower (s : Store V) {c : Cond} (h : c.Checked) :
    c.lower.truth? A vars s = c.truth? A vars s := by
  obtain ⟨vars', h⟩ := h
  induction c with
  | missing | truth => rfl
  | rel pos op l r =>
    obtain ⟨⟨op, rfl⟩, -, -⟩ := Cond.rel_of_check h
    simp [Cond.lower, Cond.truth?, Expr.truth?, Arith.value?_lower]
  | logic pos op l r ihl ihr =>
    obtain ⟨hop, hl, hr⟩ := Cond.logic_of_check h
    rcases hop with rfl | rfl <;> simp [Cond.lower, Cond.truth?, Expr.truth?, ihl hl, ihr hr]
  | not pos x ih => simp [Cond.lower, Expr.negation, Cond.truth?, Expr.truth?, ih h]

/-- Lowering a target keeps its cell. -/
theorem Place.locate?_lower (s : Store V) (p : Place) :
    p.lower.locate? A vars s = p.locate? A vars s := by
  rw [Place.lower, locate?_accessOf, Arith.value?_lower, Place.locate?]

/-! ## Actions -/

/-- The step of an assignment. -/
theorem step?_assignment {target : Option Place} {value : Arith} :
    (assignment target value).step? A vars c = some d ↔
      ∃ place l v, target = some place ∧ place.locate? A vars c.store = some l ∧
        value.value? A vars c.store = some v ∧ d = { c with store := c.store.set l v } := by
  cases target with
  | none => simp [Action.step?, assignment, Action.perform?]
  | some place =>
    simp only [Action.step?, assignment, Action.perform?, Action.written, Option.map_some,
      Place.locate?_lower, Arith.value?_lower, Option.bind_eq_bind, Option.bind_some,
      Option.bind_eq_some_iff, Option.pure_def, Option.some.injEq, List.append_nil]
    constructor
    · rintro ⟨s, ⟨l, hl, v, hv, rfl⟩, rfl⟩
      exact ⟨place, l, v, rfl, hl, hv, rfl⟩
    · rintro ⟨_, l, v, rfl, hl, hv, rfl⟩
      exact ⟨_, ⟨l, hl, v, hv, rfl⟩, rfl⟩

/-- Reading takes the first input, if there is a target. -/
theorem step?_read {target : Option Place} :
    Action.step? A vars c { kind := .read, target := target.map Place.lower } = some d ↔
      ∃ place l n rest, target = some place ∧ place.locate? A vars c.store = some l ∧
        c.input = n :: rest ∧ d = ⟨c.store.set l (A.ofInt n), rest, c.output⟩ := by
  obtain ⟨s, input, output⟩ := c
  cases input with
  | nil => simp [Action.step?]
  | cons n rest =>
    cases target with
    | none => simp [Action.step?, Action.perform?]
    | some place =>
      simp only [Action.step?, Action.perform?, Option.map_some, Place.locate?_lower,
        Option.bind_eq_bind, Option.bind_some, Option.bind_eq_some_iff, Option.pure_def,
        Option.some.injEq]
      constructor
      · rintro ⟨t, ⟨l, hl, rfl⟩, rfl⟩
        exact ⟨place, l, n, rest, rfl, hl, rfl, rfl⟩
      · rintro ⟨_, l, m, rest', rfl, hl, hin, rfl⟩
        cases hin
        exact ⟨_, ⟨l, hl, rfl⟩, rfl⟩

/-- Writing appends a value to the output. -/
theorem step?_write {value : Arith} : (Action.write value.lower).step? A vars c = some d ↔
      ∃ v, value.value? A vars c.store = some v ∧ d = { c with output := c.output ++ [v] } := by
  simp only [Action.step?, Action.write, Action.perform?, Action.written, Arith.value?_lower,
    Option.bind_eq_bind, Option.bind_eq_some_iff, Option.pure_def, Option.some.injEq]
  constructor
  · rintro ⟨s, ⟨v, hv, rfl⟩, rfl⟩
    exact ⟨v, hv, by simp [hv]⟩
  · rintro ⟨v, hv, rfl⟩
    exact ⟨c.store, ⟨v, hv, rfl⟩, by simp [hv]⟩

/-- The step of a guard: it holds, and nothing changes. -/
theorem step?_branch {e : Expr} :
    (Action.branch e).step? A vars c = some d ↔ e.truth? A vars c.store = some true ∧ d = c := by
  simp only [Action.step?, Action.branch, Action.perform?, Action.written, Option.bind_eq_bind,
    Option.bind_eq_some_iff, Option.pure_def, Option.some.injEq, List.append_nil]
  constructor
  · rintro ⟨s, ⟨b, hb, hs⟩, rfl⟩
    cases b with
    | true =>
      cases hs
      exact ⟨hb, rfl⟩
    | false => cases hs
  · rintro ⟨hb, rfl⟩
    exact ⟨d.store, ⟨true, hb, rfl⟩, rfl⟩

/-- The step of a declaration: nothing changes. -/
theorem step?_declare {decl : Declaration} :
    (Action.declare decl).step? A vars c = some d ↔ d = c := by
  simp only [Action.step?, Action.declare, Action.perform?, Action.written, Option.bind_eq_bind,
    Option.bind_some, Option.pure_def, Option.some.injEq, List.append_nil]
  exact eq_comm

end Source

/-! ## Steps of graphs of arrows -/

namespace Graph

variable {points exit : Nat} {arrows : List Arrow}

/-- The steps of the graph are those of its arrows. -/
theorem step_ofArrows {p q : Nat} : (ofArrows points arrows exit vars).Step A (p, c) (q, d) ↔
      ∃ a ∈ arrows, a.source = p ∧ a.target = q ∧ a.action.step? A vars c = some d := by
  constructor
  · rintro ⟨he, hs, ht, hd⟩
    obtain ⟨i, a, ha, rfl⟩ := mem_ofArrows.mp he
    cases hs
    cases ht
    exact ⟨a, List.mem_of_getElem? ha, rfl, rfl, hd⟩
  · rintro ⟨a, ha, rfl, rfl, hd⟩
    obtain ⟨i, hi⟩ := List.getElem?_of_mem ha
    exact .along (mem_ofArrows.mpr ⟨i, a, hi, rfl⟩) rfl rfl hd

theorem steps_of_arrow {a : Arrow} (ha : a ∈ arrows) (hd : a.action.step? A vars c = some d) :
    (ofArrows points arrows exit vars).Steps A 1 (a.source, c) (a.target, d) :=
  .head (step_ofArrows.mpr ⟨a, ha, rfl, rfl, hd⟩) (.refl _)

/-- A run that is not over yet starts with an arrow. -/
theorem Steps.first_arrow {p : Nat}
    (h : (ofArrows points arrows exit vars).Steps A n (p, c) (t, d)) (hne : p ≠ t) :
    ∃ m a c', n = m + 1 ∧ a ∈ arrows ∧ a.source = p ∧ a.action.step? A vars c = some c' ∧
      (ofArrows points arrows exit vars).Steps A m (a.target, c') (t, d) := by
  cases h with
  | refl => exact absurd rfl hne
  | @head m _ y _ first rest =>
    obtain ⟨q, c'⟩ := y
    obtain ⟨a, ha, hs, rfl, hd⟩ := step_ofArrows.mp first
    exact ⟨m, a, c', rfl, ha, hs, hd, rest⟩

end Graph

namespace Source

/-! ## Executions of items -/

variable {q : Program} {e : Config V}

theorem execItems_singleton {i : Item} :
    ExecItems A vars [i] c d ↔ Item.Exec A vars i c d := by
  refine ⟨fun h => ?_, fun h => .cons h .nil⟩
  cases h with
  | cons first later =>
    cases later
    exact first

theorem Item.exec_stmt {s : Stmt} : Item.Exec A vars (.stmt s) c d ↔ Stmt.Exec A vars s c d := by
  refine ⟨fun h => ?_, .stmt⟩
  cases h with
  | stmt run => exact run

/-- Items one after the other. -/
theorem execItems_append : ExecItems A vars (p ++ q) c e ↔
    ∃ d, ExecItems A vars p c d ∧ ExecItems A vars q d e := by
  induction p generalizing c with
  | nil =>
    refine ⟨fun h => ⟨c, .nil, h⟩, ?_⟩
    rintro ⟨_, _ | _, h⟩
    exact h
  | cons i p ih =>
    constructor
    · rintro (_ | ⟨first, later⟩)
      obtain ⟨d, hp, hq⟩ := ih.mp later
      exact ⟨d, .cons first hp, hq⟩
    · rintro ⟨d, _ | ⟨first, later⟩, hq⟩
      exact .cons first (ih.mpr ⟨d, later, hq⟩)

/-- A block is executed as its statements are, one item after the other. -/
theorem execItems_items : ∀ {b : Block} {c : Config V},
    ExecItems A vars b.items c d ↔ Block.Exec A vars b c d
  | .nil, _ => by
    constructor <;> intro h <;> cases h <;> exact .nil
  | .cons _ _, _ => by
    constructor
    · intro h
      cases h with
      | cons first later => exact .cons (Item.exec_stmt.mp first) (execItems_items.mp later)
    · intro h
      cases h with
      | cons first rest => exact .cons (.stmt first) (execItems_items.mpr rest)

/-- An item with one arrow is executed by the action on it. -/
theorem Item.exec_iff_step? {i : Item} {a : Action} (h : i.action? = some a) :
    Item.Exec A vars i c d ↔ a.step? A vars c = some d := by
  unfold Item.action? at h
  split at h <;> cases h
  · rw [step?_declare]
    refine ⟨fun h => ?_, fun h => h ▸ .declare⟩
    cases h
    rfl
  · rw [Item.exec_stmt, step?_assignment]
    refine ⟨fun h => ?_, ?_⟩
    · cases h with
      | assign hl hv => exact ⟨_, _, _, rfl, hl, hv, rfl⟩
    · rintro ⟨_, _, _, rfl, hl, hv, rfl⟩
      exact .assign hl hv
  · rw [Item.exec_stmt, step?_read]
    refine ⟨fun h => ?_, ?_⟩
    · cases h with
      | read hl => exact ⟨_, _, _, _, rfl, hl, rfl, rfl⟩
    · obtain ⟨s, input, output⟩ := c
      rintro ⟨_, _, _, _, rfl, hl, rfl, rfl⟩
      exact .read hl
  · rw [Item.exec_stmt, step?_write]
    refine ⟨fun h => ?_, ?_⟩
    · cases h with
      | write hv => exact ⟨_, hv, rfl⟩
    · rintro ⟨_, hv, rfl⟩
      exact .write hv

section

variable {pos : Pos} {cond : Cond} {body other : Block}

/-- A branch without an alternative does nothing if its condition fails. -/
theorem Stmt.exec_ifThen : Stmt.Exec A vars (.ifThen pos cond body) c d ↔
    cond.truth? A vars c.store = some true ∧ Block.Exec A vars body c d ∨
      cond.truth? A vars c.store = some false ∧ d = c := by
  constructor
  · intro h
    cases h with
    | thenBranch hc run => exact .inl ⟨hc, run⟩
    | skip hc => exact .inr ⟨hc, rfl⟩
  · rintro (⟨hc, run⟩ | ⟨hc, rfl⟩)
    · exact .thenBranch hc run
    · exact .skip hc

/-- A branch executes the body that its condition chooses. -/
theorem Stmt.exec_ifElse : Stmt.Exec A vars (.ifElse pos cond body other) c d ↔
    cond.truth? A vars c.store = some true ∧ Block.Exec A vars body c d ∨
      cond.truth? A vars c.store = some false ∧ Block.Exec A vars other c d := by
  constructor
  · intro h
    cases h with
    | firstBranch hc run => exact .inl ⟨hc, run⟩
    | otherBranch hc run => exact .inr ⟨hc, run⟩
  · rintro (⟨hc, run⟩ | ⟨hc, run⟩)
    · exact .firstBranch hc run
    · exact .otherBranch hc run

/-- An execution of a loop is made of rounds. -/
theorem Stmt.Exec.rounds {P : Config V → Config V → Prop}
    (leave : ∀ c, cond.truth? A vars c.store = some false → P c c)
    (again : ∀ c d e, cond.truth? A vars c.store = some true → Block.Exec A vars body c d →
      P d e → P c e) {c d : Config V} (h : Stmt.Exec A vars (.loop pos cond body) c d) : P c d := by
  -- by induction on the executions of all statements, of which those of the loop are a part
  refine @Stmt.Exec.rec V A vars (fun s c d _ => s = .loop pos cond body → P c d)
    (fun _ _ _ _ => True) ?_ ?_ ?_ ?_ ?_ ?_ ?_ ?leave ?again ?_ ?_ _ c d h rfl
  case leave =>
    intro _ _ _ c hc heq
    cases heq
    exact leave c hc
  case again =>
    intro _ _ _ c d e hc run _ _ more heq
    cases heq
    exact again c d e hc run (more rfl)
  all_goals simp

end

variable {enter : Option Origin} {T : Traced} {points exit s f : Nat} {arrows : List Arrow}

/-! ## From executions to runs -/

theorem steps_of_guard {m : Nat} {cond : Cond} (hcond : cond.Checked)
    (hc : cond.truth? A vars c.store = some true)
    (ha : (⟨s, m, .branch cond.lower⟩ : Arrow) ∈ arrows) :
    (Graph.ofArrows points arrows exit vars).Steps A 1 (s, c) (m, c) :=
  Graph.steps_of_arrow ha (step?_branch.mpr ⟨by rw [Cond.truth?_lower _ hcond, hc], rfl⟩)

theorem steps_of_negation {m : Nat} {cond : Cond} (hcond : cond.Checked)
    (hc : cond.truth? A vars c.store = some false)
    (ha : (⟨s, m, .branch cond.lower.negation⟩ : Arrow) ∈ arrows) :
    (Graph.ofArrows points arrows exit vars).Steps A 1 (s, c) (m, c) :=
  Graph.steps_of_arrow ha
    (step?_branch.mpr ⟨truth?_negation.mpr (by rw [Cond.truth?_lower _ hcond, hc]), rfl⟩)

/-- Items that are executed to their end are a run of their flow. -/
theorem Flow.steps_of_exec (h : Flow enter p T s f) : (∀ a ∈ T.arrows, a ∈ arrows) →
    ∀ {c d : Config V}, ExecItems A vars p c d →
      ∃ n, (Graph.ofArrows points arrows exit vars).Steps A n (s, c) (f, d) := by
  induction h with
  | @plain _ _ a s f does _ =>
    intro hsub c d hexec
    rw [execItems_singleton, Item.exec_iff_step? does] at hexec
    exact ⟨1, Graph.steps_of_arrow (a := ⟨s, f, a⟩) (hsub _ (by simp [Traced.arrows])) hexec⟩
  | ifThen checked _ _ _ ih =>
    intro hsub c d hexec
    simp only [Traced.arrows, List.map_cons, List.map_append, List.cons_append, List.map_nil,
      List.mem_cons, List.mem_append, List.not_mem_nil, or_false] at ih hsub
    rw [execItems_singleton, Item.exec_stmt, Stmt.exec_ifThen] at hexec
    rcases hexec with ⟨hc, run⟩ | ⟨hc, rfl⟩
    · obtain ⟨n, hn⟩ := ih (fun a ha => hsub a (.inr (.inl ha))) (execItems_items.mpr run)
      exact ⟨1 + n, (steps_of_guard checked hc (hsub _ (.inl rfl))).append hn⟩
    · exact ⟨1, steps_of_negation checked hc (hsub _ (.inr (.inr rfl)))⟩
  | ifElse checked _ _ _ _ _ ih ih' =>
    intro hsub c d hexec
    simp only [Traced.arrows, List.map_cons, List.map_append, List.mem_cons, List.mem_append]
      at ih ih' hsub
    rw [execItems_singleton, Item.exec_stmt, Stmt.exec_ifElse] at hexec
    rcases hexec with ⟨hc, run⟩ | ⟨hc, run⟩
    · obtain ⟨n, hn⟩ := ih (fun a ha => hsub a (.inr (.inr (.inl ha)))) (execItems_items.mpr run)
      exact ⟨1 + n, (steps_of_guard checked hc (hsub _ (.inl rfl))).append hn⟩
    · obtain ⟨n, hn⟩ := ih' (fun a ha => hsub a (.inr (.inr (.inr ha)))) (execItems_items.mpr run)
      exact ⟨1 + n, (steps_of_negation checked hc (hsub _ (.inr (.inl rfl)))).append hn⟩
  | loop checked _ _ _ ih =>
    intro hsub c d hexec
    simp only [Traced.arrows, List.map_cons, List.map_append, List.cons_append, List.map_nil,
      List.mem_cons, List.mem_append, List.not_mem_nil, or_false] at ih hsub
    rw [execItems_singleton, Item.exec_stmt] at hexec
    refine Stmt.Exec.rounds
      (P := fun c d => ∃ n, (Graph.ofArrows points arrows exit vars).Steps A n (_, c) (_, d))
      (fun c hc => ?_) (fun c d e hc run more => ?_) hexec
    · exact ⟨1, steps_of_negation checked hc (hsub _ (.inr (.inr rfl)))⟩
    · -- the body ends at the head, where the loop starts once more
      obtain ⟨n, hn⟩ := ih (fun a ha => hsub a (.inr (.inl ha))) (execItems_items.mpr run)
      obtain ⟨m, hm⟩ := more
      exact ⟨1 + n + m, ((steps_of_guard checked hc (hsub _ (.inl rfl))).append hn).append hm⟩
  | seq _ _ _ _ ih ih' =>
    intro hsub c d hexec
    simp only [Traced.arrows, List.map_append, List.mem_append] at ih ih' hsub
    obtain ⟨e, hp, hq⟩ := execItems_append.mp hexec
    obtain ⟨m, hm⟩ := ih (fun a ha => hsub a (.inl ha)) hp
    obtain ⟨n, hn⟩ := ih' (fun a ha => hsub a (.inr ha)) hq
    exact ⟨m + n, hm.append hn⟩

/-! ## From runs to executions -/

/-- Every arrow that leaves `source` is one of the two guards of a condition. -/
def ForksAt (source p q : Nat) (c : Expr) (arrows : List Arrow) : Prop :=
  ∀ a ∈ arrows, a.source = source →
    a = ⟨source, p, .branch c⟩ ∨ a = ⟨source, q, .branch c.negation⟩

/-- A run from a fork decides the condition first, and takes one of the two ways. -/
theorem ForksAt.of_steps {p q : Nat} {cond : Cond}
    (h : ForksAt s p q cond.lower arrows) (hcond : cond.Checked) (hne : s ≠ t)
    (hsteps : (Graph.ofArrows points arrows exit vars).Steps A n (s, c) (t, e)) :
    ∃ m, n = m + 1 ∧
      (cond.truth? A vars c.store = some true ∧
          (Graph.ofArrows points arrows exit vars).Steps A m (p, c) (t, e) ∨
        cond.truth? A vars c.store = some false ∧
          (Graph.ofArrows points arrows exit vars).Steps A m (q, c) (t, e)) := by
  obtain ⟨m, a, d, rfl, ha, hsrc, hd, hrest⟩ := hsteps.first_arrow hne
  refine ⟨m, rfl, ?_⟩
  rcases h a ha hsrc with rfl | rfl
  · obtain ⟨htrue, rfl⟩ := step?_branch.mp hd
    rw [Cond.truth?_lower _ hcond] at htrue
    exact .inl ⟨htrue, hrest⟩
  · obtain ⟨hneg, rfl⟩ := step?_branch.mp hd
    rw [truth?_negation, Cond.truth?_lower _ hcond] at hneg
    exact .inr ⟨hneg, hrest⟩

/-- A flow holds every arrow that leaves one of its points of departure. -/
def Traced.Holds (T : Traced) (arrows : List Arrow) : Prop :=
  ∀ a ∈ arrows, T.Departs a.source → a ∈ T.arrows

namespace Traced.Holds

variable {U : Traced}

/-- A flow that holds its arrows consists of a fork, and of a flow behind it that does. -/
theorem fork {m : Nat} {g : Expr} (h : U.Holds arrows) (fresh : ¬ T.Departs s)
    (hmem : ∀ a, a ∈ U.arrows ↔
      a = ⟨s, n, .branch g⟩ ∨ a = ⟨s, m, .branch g.negation⟩ ∨ a ∈ T.arrows) :
    ForksAt s n m g arrows ∧ T.Holds arrows := by
  refine ⟨fun a ha hs => ?_, fun a ha hT => ?_⟩
  · have hU : U.Departs a.source := departs_iff.mpr ⟨_, (hmem _).mpr (.inl rfl), hs.symm⟩
    rcases (hmem a).mp (h a ha hU) with hfirst | hsecond | hin
    · exact .inl hfirst
    · exact .inr hsecond
    · exact absurd hs (source_ne fresh a hin)
  · obtain ⟨b, hb, hs⟩ := departs_iff.mp hT
    have hU : U.Departs a.source := departs_iff.mpr ⟨b, (hmem b).mpr (.inr (.inr hb)), hs⟩
    rcases (hmem a).mp (h a ha hU) with rfl | rfl | hin
    · exact absurd hT fresh
    · exact absurd hT fresh
    · exact hin

theorem enclosed {m : Nat} {g : Expr} {o o' : Origin} (fresh : ¬ T.Departs s)
    (h : Holds ((o, ⟨s, n, .branch g⟩) :: T ++ [(o', ⟨s, m, .branch g.negation⟩)]) arrows) :
    ForksAt s n m g arrows ∧ T.Holds arrows := by
  refine h.fork fresh fun a => ?_
  simp only [Traced.arrows, List.map_cons, List.map_append, List.cons_append, List.map_nil,
    List.mem_cons, List.mem_append, List.not_mem_nil, or_false]
  rw [or_comm (b := a = _)]

/-- Two flows that share no point hold what leaves their own. -/
theorem append (h : Holds (T ++ U) arrows) (apart : ∀ n, T.Departs n → ¬ U.Departs n) :
    T.Holds arrows ∧ U.Holds arrows := by
  have hmem : ∀ a, a ∈ arrows → T.Departs a.source ∨ U.Departs a.source →
      a ∈ T.arrows ∨ a ∈ U.arrows := fun a ha hTU => by
    simpa [Traced.arrows] using h a ha (departs_append.mpr hTU)
  refine ⟨fun a ha hT => ?_, fun a ha hU => ?_⟩
  · exact (hmem a ha (.inl hT)).resolve_right
      fun hin => apart _ hT (departs_iff.mpr ⟨a, hin, rfl⟩)
  · exact (hmem a ha (.inr hU)).resolve_left
      fun hin => apart _ (departs_iff.mpr ⟨a, hin, rfl⟩) hU

end Traced.Holds

/--
A run that starts where a flow starts and gets to the exit, which the flow does not leave,
executes the items of the flow and goes on from where the flow ends.
-/
theorem Flow.exec_of_steps (h : Flow enter p T s f) : T.Holds arrows → ¬ T.Departs t →
    ∀ {n : Nat} {c : Config V},
      (Graph.ofArrows points arrows exit vars).Steps A n (s, c) (t, e) →
      ∃ k d, k < n ∧ ExecItems A vars p c d ∧
        (Graph.ofArrows points arrows exit vars).Steps A k (f, d) (t, e) := by
  induction h with
  | @plain _ _ a s f does _ =>
    intro hholds ht n c hsteps
    rw [Traced.departs_cons, not_or] at ht
    obtain ⟨m, b, d, rfl, hb, rfl, hd, hrest⟩ := hsteps.first_arrow ht.1
    have hb' := hholds b hb (Traced.departs_cons.mpr (.inl rfl))
    simp only [Traced.arrows, List.map_cons, List.map_nil, List.mem_singleton] at hb'
    rw [hb'] at hd hrest
    exact ⟨m, d, Nat.lt_succ_self m,
      execItems_singleton.mpr ((Item.exec_iff_step? does).mpr hd), hrest⟩
  | ifThen checked _ fresh _ ih =>
    intro hholds ht n c hsteps
    rw [Traced.departs_enclosed, not_or, not_or] at ht
    obtain ⟨hfork, hbody⟩ := hholds.enclosed fresh
    simp only [execItems_singleton, Item.exec_stmt, Stmt.exec_ifThen]
    obtain ⟨m, rfl, ⟨htrue, hrest⟩ | ⟨hfalse, hrest⟩⟩ := hfork.of_steps checked ht.1 hsteps
    · obtain ⟨k, d, hk, hexec, hgo⟩ := ih hbody ht.2.1 hrest
      exact ⟨k, d, by omega, .inl ⟨htrue, execItems_items.mp hexec⟩, hgo⟩
    · exact ⟨m, c, by omega, .inr ⟨hfalse, rfl⟩, hrest⟩
  | ifElse checked _ _ fresh apart _ ih ih' =>
    intro hholds ht n c hsteps
    simp only [Traced.departs_cons, Traced.departs_append, not_or] at ht
    obtain ⟨hfork, hboth⟩ := hholds.fork (Traced.departs_append.not.mpr (not_or.mpr fresh))
      fun a => by
        rw [Traced.arrows, List.map_cons, List.map_cons, List.mem_cons, List.mem_cons]
        rfl
    obtain ⟨hbody, hother⟩ := hboth.append apart
    simp only [execItems_singleton, Item.exec_stmt, Stmt.exec_ifElse]
    obtain ⟨m, rfl, ⟨htrue, hrest⟩ | ⟨hfalse, hrest⟩⟩ := hfork.of_steps checked ht.1 hsteps
    · obtain ⟨k, d, hk, hexec, hgo⟩ := ih hbody ht.2.2.1 hrest
      exact ⟨k, d, by omega, .inl ⟨htrue, execItems_items.mp hexec⟩, hgo⟩
    · obtain ⟨k, d, hk, hexec, hgo⟩ := ih' hother ht.2.2.2 hrest
      exact ⟨k, d, by omega, .inr ⟨hfalse, execItems_items.mp hexec⟩, hgo⟩
  | loop checked body _ _ ih =>
    intro hholds ht n
    rw [Traced.departs_enclosed, not_or, not_or] at ht
    obtain ⟨hfork, hbody⟩ := hholds.enclosed body.finish
    simp only [execItems_singleton, Item.exec_stmt]
    -- every round of the loop makes the run shorter
    induction n using Nat.strongRecOn with
    | _ n rounds =>
      intro c hsteps
      obtain ⟨m, rfl, ⟨htrue, hrest⟩ | ⟨hfalse, hrest⟩⟩ := hfork.of_steps checked ht.1 hsteps
      · obtain ⟨k, d, hk, hexec, hgo⟩ := ih hbody ht.2.1 hrest
        obtain ⟨k', d', hk', hmore, hend⟩ := rounds k (by omega) hgo
        exact ⟨k', d', by omega, .again htrue (execItems_items.mp hexec) hmore, hend⟩
      · exact ⟨m, c, by omega, .leave hfalse, hrest⟩
  | seq _ _ apart _ ih ih' =>
    intro hholds ht n c hsteps
    rw [Traced.departs_append, not_or] at ht
    obtain ⟨hfirst, hrest⟩ := hholds.append apart
    obtain ⟨k, d, hk, hexec, hgo⟩ := ih hfirst ht.1 hsteps
    obtain ⟨k', d', hk', hexec', hgo'⟩ := ih' hrest ht.2 hgo
    exact ⟨k', d', by omega, execItems_append.mpr ⟨d, hexec, hexec'⟩, hgo'⟩

/-! ## Programs -/

/-- The variables of a checked program are its declarations. -/
theorem checkProgram_vars {vars vars' : Variables}
    (h : checkProgram vars p = .ok vars') : vars' = vars ++ declarations p := by
  induction p generalizing vars with
  | nil =>
    cases h
    simp [declarations]
  | cons i rest ih =>
    rw [checkProgram, bind_eq_ok] at h
    obtain ⟨vars₁, hi, hrest⟩ := h
    rw [ih hrest]
    cases i with
    | declare pos shape name length =>
      have hvars := (Item.declare_of_check hi).2.2
      simp [declarations, hvars]
    | stmt s =>
      have hvars := Item.vars_of_check hi
      simp [declarations, hvars]
    | expression form => simp [Item.check] at hi
    | missing => simp [Item.check] at hi

end Source

open Source

/-- The graph of a program tree is that of its layout, with the variables it declares. -/
theorem graph_of_build {b : Built} (h : build p = .ok b) : (∀ i ∈ p, i.Checked) ∧
      b.graph = .ofArrows (lowerProgram 0 1 p).next (lowerProgram 0 1 p).arrows
        (lowerProgram 0 1 p).finish (declarations p) := by
  obtain ⟨vars, hvars, hg, -⟩ := build_eq_ok h
  have hdecl : vars = declarations p := by simpa using checkProgram_vars hvars
  rw [hdecl] at hg
  exact ⟨checked_of_checkProgram hvars, hg⟩

/-- Both directions, for a whole program. -/
theorem execProgram_iff_steps {b : Built} (h : build p = .ok b) (c d : Config V) :
    ExecProgram A p c d ↔ ∃ n t, b.graph.exit = .listed t ∧ b.graph.Steps A n (0, c) (t, d) := by
  obtain ⟨hp, hg⟩ := graph_of_build h
  have hend : ∀ a ∈ (lowerProgram 0 1 p).arrows, a.source ≠ (lowerProgram 0 1 p).finish :=
    fun a ha => lowerProgram_source_ne hp ha
  -- a run from the end of the program is over
  have hover : ∀ {n : Nat} {c d : Config V}, b.graph.Steps A n ((lowerProgram 0 1 p).finish, c)
      ((lowerProgram 0 1 p).finish, d) → d = c := by
    rw [hg]
    rintro n c d (_ | ⟨first, -⟩)
    · rfl
    · obtain ⟨a, ha, hs, -⟩ := Graph.step_ofArrows.mp first
      exact absurd hs (hend a ha)
  rcases lowerProgram_cases hp with rfl | ⟨T, -, harrows, hflow, -⟩
  · constructor
    · rintro (_ | _)
      exact ⟨0, 0, by rw [hg]; rfl, .refl _⟩
    · rintro ⟨n, t, ht, hn⟩
      rw [hg] at ht
      cases ht
      rw [hover hn]
      exact .nil
  · rw [hg] at hover ⊢
    rw [← harrows] at hover ⊢
    constructor
    · intro hexec
      obtain ⟨n, hn⟩ := hflow.steps_of_exec (fun a ha => ha) hexec
      exact ⟨n, _, rfl, hn⟩
    · rintro ⟨n, t, ht, hn⟩
      cases ht
      obtain ⟨k, d', -, hexec, hrest⟩ := hflow.exec_of_steps (fun a ha _ => ha) hflow.finish hn
      rw [hover hrest]
      exact hexec

/-! ## Programs that divide by zero stop -/

/--
The graph of a program means what the program means.  Started in the same store with the same
input, the program ends with a store, a rest of the input and an output exactly when the graph
has a run from its entry to its exit that ends with them.  No two edges that leave one node are
enabled in one store.
-/
theorem build_preserves_meaning {p : Program} {b : Built} (h : build p = .ok b) :
    (∀ (s s' : Store Int) (input rest output : List Int),
      ExecProgram .halting p ⟨s, input, []⟩ ⟨s', rest, output⟩ ↔
        ∃ n t, b.graph.exit = .listed t ∧
          b.graph.Steps .halting n (0, ⟨s, input, []⟩) (t, ⟨s', rest, output⟩)) ∧
    (∀ (q i j : Nat) (e f : Edge) (s : Store Int), b.graph.edges[i]? = some e →
      b.graph.edges[j]? = some f → e.source = .listed q → f.source = .listed q →
      e.action.enabled .halting b.graph.vars s = true →
      f.action.enabled .halting b.graph.vars s = true → i = j) := by
  constructor
  · intro s s' input rest output
    exact execProgram_iff_steps h _ _
  · intro q i j e f s he hf hse hsf hen hfn
    exact (branching_of_build h).enabled_unique he hf hse hsf hen hfn

/-- Reads a number and writes the numbers below it: `int x; read x; while (x > 0) …`. -/
def countdown : Program :=
  let x : Arith := .access default .scalar "x" .missing ""
  let place : Place := ⟨default, .scalar, "x", .missing, ""⟩
  [.declare default .scalar "x" 0,
    .stmt (.read default (some place)),
    .stmt (.loop default (.rel default (.rel .gt) x (.num default 0))
      (.ofList [
        .assign default (some place) (.binary default (.arith .sub) x (.num default 1)),
        .write default x]))]

/-- From 2 the program counts down to 0, and so does its graph. -/
theorem build_preserves_meaning_countdown :
    ∃ b, build countdown = .ok b ∧
      (∃ n t s, b.graph.exit = .listed t ∧
        b.graph.Steps .halting n (0, ⟨fun _ => 7, [2, 5], []⟩) (t, ⟨s, [5], [1, 0]⟩)) ∧
      (∀ (q i j : Nat) (e f : Edge) (s : Store Int), b.graph.edges[i]? = some e →
        b.graph.edges[j]? = some f → e.source = .listed q → f.source = .listed q →
        e.action.enabled .halting b.graph.vars s = true →
        f.action.enabled .halting b.graph.vars s = true → i = j) := by
  obtain ⟨b, hb⟩ : ∃ b, build countdown = .ok b := ⟨_, rfl⟩
  obtain ⟨hmeaning, hunique⟩ := build_preserves_meaning hb
  refine ⟨b, hb, ?_, hunique⟩
  have hexec : ∃ s, ExecProgram .halting countdown ⟨fun _ => 7, [2, 5], []⟩ ⟨s, [5], [1, 0]⟩ := by
    exact ⟨_, .cons .declare (.cons (.stmt (.read rfl)) (.cons (.stmt
      (.again rfl (.cons (.assign rfl rfl) (.cons (.write rfl) .nil))
        (.again rfl (.cons (.assign rfl rfl) (.cons (.write rfl) .nil)) (.leave rfl)))) .nil))⟩
  obtain ⟨s, hs⟩ := hexec
  obtain ⟨n, t, ht, hn⟩ := (hmeaning _ _ _ _ _).mp hs
  exact ⟨n, t, s, ht, hn⟩

end MicroFlow
