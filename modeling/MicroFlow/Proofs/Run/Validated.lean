import MicroFlow.Proofs.Run.Safety

/-!
# Validation suffices

A graph can be put together by hand, or be damaged after it was made: actions carry leftover parts
of another kind, operators stand between operands of the wrong type, nodes cannot be reached, edges
leave the exit.  When it passes validation all the same, and its nodes list exactly their edges,
then the parts of the library that do not look at types work on it
(`validated_graphs_withstand`).  They are depth-first orders, figures, reaching definitions, live
variables and dependence graphs.

Validation looks at an action the way these parts do: through `Action.uses` and `Action.defines`.
Both read only the parts that the kind asks for, and the index of a target whatever the kind is, so
a leftover is either declared or never read.  What validation does not look at is whether a leaf of
a tree has its operand.  `Strict.uses` breaks off there, and agrees with `Action.uses` on whole
trees (`Strict.uses_eq_ok`).
-/

namespace MicroFlow

open Relation (ReflTransGen)

/-! ## Whole trees -/

/-- Every leaf of the tree has its operand, also inside of indices.  A tree in which nothing is
missing is whole, and so is one that lacks an operand of an operator. -/
def Expr.whole : Expr → Bool
  | .element _ i _ => i.whole
  | .node op l r => op != .unknown "" && l.whole && r.whole
  | _ => true

/-- The trees that an action carries are whole, those that its kind does not ask for included. -/
def Action.whole (a : Action) : Bool :=
  a.value.whole && a.guard.whole && a.target.all fun t => t.index.whole

namespace Strict

/-- The variables touched by a tree.  A node without an operator is a leaf, which has to have its
operand. -/
def accesses : Expr → Except Fault (List Access)
  | .missing | .literal _ | .truth _ | .symbol _ => .ok []
  | .scalar x => .ok [.scalar x]
  | .element x i l => do return .element x i l :: (← accesses i)
  | .field x s => .ok [.field x s]
  | .odd x => .ok [.odd x]
  | .node op l r =>
    if op = .unknown "" then .error .brokenReference
    else do return (← accesses l) ++ (← accesses r)

/-- The variables of the value or the guard of an action. -/
def ownUses (a : Action) : Except Fault (List Access) :=
  match a.kind with
  | .assign | .write => accesses a.value
  | .boolean => accesses a.guard
  | _ => .ok []

/-- The variables of the index of an array target. -/
def indexUses (target : Option Access) : Except Fault (List Access) :=
  match target with
  | some (.element _ i _) => accesses i
  | _ => .ok []

/-- Every variable that an action reads. -/
def uses (a : Action) : Except Fault (List Access) := do
  let own ← ownUses a
  return own ++ (← indexUses a.target)

/-- The accesses of a whole tree are found without a fault. -/
theorem accesses_eq_ok {e : Expr} (h : e.whole = true) : accesses e = .ok e.accesses := by
  induction e with
  | missing | literal | truth | symbol | scalar | field | odd => rfl
  | element x i l ih =>
    rw [accesses, ih h]
    rfl
  | node op l r ihl ihr =>
    simp only [Expr.whole, Bool.and_eq_true, bne_iff_ne] at h
    obtain ⟨⟨hop, hl⟩, hr⟩ := h
    rw [accesses, if_neg hop, ihl hl, ihr hr]
    rfl

theorem ownUses_eq_ok {a : Action} (hvalue : a.value.whole = true) (hguard : a.guard.whole = true) :
    ownUses a = .ok { a with target := none : Action }.uses := by
  unfold ownUses Action.uses
  cases a.kind with
  | assign | write => simp [accesses_eq_ok hvalue]
  | boolean => simp [accesses_eq_ok hguard]
  | read | declare | unknown => rfl

/-- So are the uses of a whole action. -/
theorem uses_eq_ok {a : Action} (h : a.whole = true) : uses a = .ok a.uses := by
  simp only [Action.whole, Bool.and_eq_true] at h
  obtain ⟨⟨hvalue, hguard⟩, htarget⟩ := h
  rw [uses, ownUses_eq_ok hvalue hguard]
  unfold indexUses Action.uses
  cases ht : a.target with
  | none => simp [bind, Except.bind, pure, Except.pure]
  | some t =>
    cases t with
    | scalar | field | odd => simp [bind, Except.bind, pure, Except.pure]
    | element x i l =>
      have hi : i.whole = true := by simpa [ht, Access.index] using htarget
      simp [accesses_eq_ok hi, bind, Except.bind, pure, Except.pure]

/-! ## Data dependences -/

/-- The edges that define a variable; the variable's set has to be there. -/
def sites (vars : Variables) (m : Definitions) (name : String) : Except Fault (List Nat) :=
  match vars.findIdx? (·.name == name) with
  | none => .ok []
  | some i => do
    let s ← entry m i
    return s.members.filterMap fun b => if b = Definitions.entrySite then none else some (b - 1)

def dataDependences (vars : Variables) (definitions : Option Definitions) (e : Edge) :
    Except Fault (List Dependence) :=
  match definitions with
  | none => .ok []
  | some m => do
    let names := DependenceGraph.firstNames ((← uses e.action).map Access.name)
    let lists ← names.mapM fun x => do
      return (← sites vars m x).map fun (site : Nat) =>
        { source := site, target := e.id, kind := .data, label := x }
    return lists.flatten

/-- The sites of a variable are found without a fault. -/
theorem sites_eq_ok {vars : Variables} {m : Definitions} (hm : m.length = vars.length)
    (name : String) : sites vars m name = .ok (m.sites vars name).1 := by
  unfold sites Definitions.sites
  cases hi : vars.findIdx? (·.name == name) with
  | none => rfl
  | some i =>
    have hlt : i < m.length := hm ▸ (List.findIdx?_eq_some_iff_getElem.mp hi).1
    simp only [entry_eq_ok hlt .empty]
    rfl

/-- And its data dependences. -/
theorem dataDependences_eq_ok {vars : Variables} {definitions : Option Definitions} {e : Edge}
    (he : e.action.whole = true) (h : ∀ m, definitions = some m → m.length = vars.length) :
    dataDependences vars definitions e = .ok
    (DependenceGraph.dataDependences vars definitions e) := by
  cases definitions with
  | none => rfl
  | some m =>
    -- every name has its list, so that the lists are those of a map
    have hlists : ∀ names : List String, (names.mapM fun x => do
        return (← sites vars m x).map fun (site : Nat) =>
          (⟨site, e.id, .data, x⟩ : Dependence)) = .ok (names.map fun x =>
        (m.sites vars x).1.map fun (site : Nat) => (⟨site, e.id, .data, x⟩ : Dependence)) := by
      intro names
      rw [mapM_eq_ok, List.forall₂_map_right_iff]
      refine List.forall₂_same.mpr fun x _ => ?_
      rw [sites_eq_ok (h m rfl)]
      rfl
    simp only [dataDependences, DependenceGraph.dataDependences, uses_eq_ok he, List.flatMap_def,
      bind, Except.bind] at hlists ⊢
    rw [hlists]
    rfl

end Strict

/-! ## Validated graphs -/

/-- What does not look at types works on the graph: it ends, and every reference on the way leads
somewhere. -/
structure Graph.Withstands (g : Graph) : Prop where
  uses : ∀ e ∈ g.edges, Strict.uses e.action = .ok e.action.uses
  texts : ∀ e ∈ g.edges, ∃ text, e.action.text? = some text
  declared : ∀ e ∈ g.edges, ∀ x ∈ e.action.uses ++ e.action.defines.toList,
    ∃ i, g.vars.of x = some i ∧ i < g.vars.length
  ends : ∀ e ∈ g.edges, ∃ p q : Nat, g.ends e = .ok ((p : Int), (q : Int)) ∧
    p < g.nodes.size ∧ q < g.nodes.size
  order : ∀ reverse, ∃ ord, g.depthFirst reverse = .ok ord ∧
    ord.order.Perm (List.range g.nodes.size) ∧ ord.rank.size = g.nodes.size ∧
    ∀ i, i < g.nodes.size → ∃ r, r < g.nodes.size ∧ ord.rank[i]? = some r ∧ ord.order[r]? = some i
  stats : ∃ stats, g.stats = .ok stats
  live : (liveVariables g).StopsWithin g (1 + g.vars.length) ∧
    (liveVariables g).InRange g (Strict.live g) fun m => ∀ i, m.has i = true → i < g.vars.length
  reaching : (reachingDefinitions g).StopsWithin g (1 + g.vars.length * (g.edges.size + 1)) ∧
    (reachingDefinitions g).InRange g (Strict.definitions g) fun m =>
      m.length = g.vars.length ∧ ∀ i s, (m.setAt i).has s = true → s < g.edges.size + 1
  /-- The rounds of the search for post-dominators come to an end. -/
  postDominators : ∃ exit ord sets, g.depthFirst true = .ok ord ∧ g.postDominators = .ok sets ∧
    ReflTransGen (g.Round exit ord.order) (g.widest exit) sets ∧ g.Calm exit ord.order sets ∧
    sets.size = g.nodes.size ∧ ∀ v x, (sets.setAt v).has x = true → x < g.nodes.size
  /-- Every edge finds the definitions of what it uses. -/
  dependences : ∃ solution d, (reachingDefinitions g).chaotic g none = .ok solution ∧
    DependenceGraph.ofGraph g = .ok d ∧
    (∀ e ∈ g.edges, ∃ p ds, e.source = .listed p ∧ p < solution.values.size ∧
      Strict.dataDependences g.vars (solution.values.value p) e = .ok ds ∧
      ∀ x ∈ ds, x ∈ d.dependences) ∧
    ∀ x ∈ d.dependences, g.ListsEdge x.source ∧ g.ListsEdge x.target

namespace Graph.Coherent

variable {g : Graph} (hg : g.Coherent)

include hg

/-- The data dependences of every edge are found by strict means, and are in the dependence
graph. -/
theorem exists_dependences (hwhole : ∀ e ∈ g.edges, e.action.whole = true) :
    ∃ solution d, (reachingDefinitions g).chaotic g none = .ok solution ∧
      DependenceGraph.ofGraph g = .ok d ∧
      (∀ e ∈ g.edges, ∃ p ds, e.source = .listed p ∧ p < solution.values.size ∧
        Strict.dataDependences g.vars (solution.values.value p) e = .ok ds ∧
        ∀ x ∈ ds, x ∈ d.dependences) ∧
      ∀ x ∈ d.dependences, g.ListsEdge x.source ∧ g.ListsEdge x.target := by
  obtain ⟨d, hd, -⟩ := DependenceGraph.ofGraph_eq_ok hg
  obtain ⟨V, sets, lists, hV, hdeps, hlists⟩ := DependenceGraph.ofGraph_cases hg hd
  obtain ⟨solution, -, hsolution, hleast, -⟩ :=
    Analysis.Domain.chaotic_least hg (reachingDefinitionsDomain hg)
  refine ⟨solution, d, hsolution, hd, fun e he => ?_, (DependenceGraph.ofGraph_listed hg hd).2⟩
  obtain ⟨p, -, hp, -, hs, -⟩ := hg.ends_listed he
  have hsize : solution.values.size = g.nodes.size := hleast.solves.size
  refine ⟨p, _, hs, hsize ▸ hp, Strict.dataDependences_eq_ok (hwhole e he) fun m hm =>
    (hleast.proper p m hm).1, fun x hx => ?_⟩
  obtain ⟨ds, hds, hok⟩ := (mem_of_mapM_eq_ok hlists).2 e (by simpa using he)
  obtain ⟨p', cs, -, hs', -, rfl⟩ := DependenceGraph.dependencesOf_cases hg hV.solves.size he hok
  cases hs.symm.trans hs'
  rw [hdeps]
  refine List.mem_flatten.mpr ⟨_, hds, List.mem_append_left _ ?_⟩
  rwa [hV.unique hleast]

end Graph.Coherent

/--
On a graph that passes validation, whose nodes list exactly the edges that leave and enter them,
whose exit is one of its nodes, and whose actions carry whole trees, everything works that does not
look at types.  Depth-first orders are found in both directions, and so are the figures.  The loops
of all solvers end for reaching definitions and for live variables, with every variable declared and
every access in range on the way.  So does the search for post-dominators, and the dependence
graph is made.
-/
theorem validated_graphs_withstand {g : Graph} (hg : g.Coherent)
    (hwhole : ∀ e ∈ g.edges, e.action.whole = true) : g.Withstands where
  uses e he := Strict.uses_eq_ok (hwhole e he)
  texts e he := Action.exists_text (hg.valid.action e he)
  declared e he x hx := by
    obtain ⟨i, hi⟩ := hg.declared he x hx
    exact ⟨i, hi, Variables.lt_of_of_eq_some hi⟩
  ends e he := by
    obtain ⟨p, q, hp, hq, hs, ht⟩ := hg.ends_listed he
    exact ⟨p, q, hg.ends he hs ht, hp, hq⟩
  order := hg.depthFirst_ranks
  stats := hg.exists_stats
  live := hg.liveVariables_ends
  reaching := hg.reachingDefinitions_ends
  postDominators := hg.exists_postDominators
  dependences := hg.exists_dependences hwhole

/-- A graph of odds and ends.  The declaration has the array target of another action left over, and
the read a value with a variable that is not declared; a guard is a sum; node 3 cannot be
reached, node 1 has an edge to itself, two edges run side by side, and one leaves the exit. -/
def patchedGraph : Graph where
  nodes := #[some { id := 0, out := [0], into := [4] },
    some { id := 1, out := [1, 2, 3], into := [0, 1] },
    some { id := 2, terminal := true, out := [4], into := [2, 3, 5] }, some { id := 3, out := [5] }]
  edges := #[
    ⟨0, .listed 0, .listed 1, { Action.read (.element "a" (.scalar "x") none) with
      kind := .declare, decl := some ⟨"x", .scalar, 0⟩ }⟩,
    ⟨1, .listed 1, .listed 1, { Action.read (.element "a" (.scalar "x") none) with
      value := .scalar "ghost" }⟩,
    ⟨2, .listed 1, .listed 2, .branch (.node (.arith .add) (.scalar "x") (.literal 5))⟩,
    ⟨3, .listed 1, .listed 2, .branch (.truth true)⟩,
    ⟨4, .listed 2, .listed 0, .write (.element "a" (.literal 1) none)⟩,
    ⟨5, .listed 3, .listed 2, .assign (.scalar "x") (.node .and .missing (.truth false))⟩]
  vars := [⟨"x", .scalar, 0⟩, ⟨"a", .array, 2⟩]
  exit := .listed 2

/-- The graph is not well typed, and no program has such a graph.  It withstands all the same: it
has figures, and the write that follows the exit depends on the read. -/
theorem validated_graphs_withstand_patched :
    patchedGraph.Coherent ∧ (∀ e ∈ patchedGraph.edges, e.action.whole = true) ∧
      ¬ patchedGraph.WellTyped ∧ patchedGraph.Withstands ∧
      (∃ stats, patchedGraph.stats = .ok stats) ∧
      ∃ d, DependenceGraph.ofGraph patchedGraph = .ok d ∧ ⟨1, 4, .data, "a"⟩ ∈ d.dependences := by
  have hg : patchedGraph.Coherent := by decide +kernel
  have hwhole : ∀ e ∈ patchedGraph.edges, e.action.whole = true := by decide +kernel
  have hwithstands := validated_graphs_withstand hg hwhole
  have hdata : (DependenceGraph.ofGraph patchedGraph).toOption.map
      (fun d => d.dependences.contains ⟨1, 4, .data, "a"⟩) = some true := by decide +kernel
  refine ⟨hg, hwhole, by decide +kernel, hwithstands, hwithstands.stats, ?_⟩
  obtain ⟨-, d, -, hd, -⟩ := hwithstands.dependences
  refine ⟨d, hd, ?_⟩
  simpa [hd, Except.toOption] using hdata

end MicroFlow
