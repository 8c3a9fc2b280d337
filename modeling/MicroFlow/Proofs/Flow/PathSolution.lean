import MicroFlow.Proofs.Dependence.Graph
import MicroFlow.Proofs.Flow.Forward
import MicroFlow.Proofs.Flow.Separable
import MicroFlow.Proofs.Run.Report

/-!
# Reaching definitions and live variables along paths

Both analyses are separable: a site of a variable, or a live variable, is kept by every edge
that does not overwrite the variable.  So what every solver finds is what the paths of the
graph say.

Variables are meant by their names here (`Action.WritesInto`, `Action.Overwrites`), as in a
report; the analyses know them by their positions.
-/

namespace MicroFlow

/-! ## What an action does to the variable with a name -/

namespace Action

/-- The action assigns or reads into the variable, or into an element or a field of it. -/
def WritesInto (a : Action) (x : String) : Prop :=
  (a.kind = .assign ∨ a.kind = .read) ∧ ∃ target, a.target = some target ∧ target.name = x

/-- The action assigns or reads into the variable as a scalar. -/
def WritesScalar (a : Action) (x : String) : Prop :=
  (a.kind = .assign ∨ a.kind = .read) ∧ a.target = some (.scalar x)

/-- The variable is among those that the action uses. -/
def Mentions (a : Action) (x : String) : Prop := ∃ use ∈ a.uses, use.name = x

/-- Assignments and reads define their target. -/
theorem defines_eq_some_iff {a : Action} {target : Access} :
    a.defines = some target ↔ (a.kind = .assign ∨ a.kind = .read) ∧ a.target = some target := by
  unfold defines
  cases a.kind <;> simp

end Action

/-- A declared access is one to the variable at a position when it has the name of it. -/
theorem Variables.of_eq_some_iff_name {vars : Variables} {x : String} {i j : Nat} {t : Access}
    (hx : vars.findIdx? (·.name == x) = some i) (ht : vars.of t = some j) :
    vars.of t = some i ↔ t.name = x := by
  obtain ⟨d, hd, hname, -, hindex⟩ := Variables.of_eq_some ht
  constructor
  · intro hi
    rw [hi] at ht
    cases ht
    obtain ⟨hlt, hix, -⟩ := List.findIdx?_eq_some_iff_getElem.mp hx
    rw [List.getElem?_eq_getElem hlt] at hd
    cases hd
    rw [← hname]
    simpa using hix
  · rintro rfl
    rw [ht, ← hindex, hx]

section Names

variable {vars : Variables} {a : Action} {x : String} {i : Nat}
  (hx : vars.findIdx? (·.name == x) = some i) (h : a.Declared vars)

include hx h

/-- By position and by name, an action writes into one variable. -/
theorem Action.defines_iff_writesInto : a.Defines vars i ↔ a.WritesInto x := by
  constructor
  · rintro ⟨target, htarget, hi⟩
    obtain ⟨hkind, heq⟩ := defines_eq_some_iff.mp htarget
    exact ⟨hkind, target, heq, (Variables.of_eq_some_iff_name hx hi).mp hi⟩
  · rintro ⟨hkind, target, heq, hname⟩
    have htarget := defines_eq_some_iff.mpr ⟨hkind, heq⟩
    obtain ⟨j, hj⟩ := h.target htarget
    exact ⟨target, htarget, (Variables.of_eq_some_iff_name hx hj).mpr hname⟩

/-- The same for the scalar that it overwrites. -/
theorem Action.overwrites_iff_writesScalar : a.Overwrites vars i ↔ a.WritesScalar x := by
  constructor
  · rintro ⟨y, hy, hi⟩
    have hname : y = x := (Variables.of_eq_some_iff_name hx hi).mp hi
    subst hname
    exact defines_eq_some_iff.mp hy
  · intro hscalar
    have htarget : a.defines = some (.scalar x) := defines_eq_some_iff.mpr hscalar
    obtain ⟨j, hj⟩ := h.target htarget
    exact ⟨x, htarget, (Variables.of_eq_some_iff_name hx hj).mpr rfl⟩

theorem Action.uses_iff_mentions : a.Uses vars i ↔ a.Mentions x := by
  constructor
  · rintro ⟨use, huse, hi⟩
    exact ⟨use, huse, (Variables.of_eq_some_iff_name hx hi).mp hi⟩
  · rintro ⟨use, huse, hname⟩
    obtain ⟨j, hj⟩ := h.use huse
    exact ⟨use, huse, (Variables.of_eq_some_iff_name hx hj).mpr hname⟩

end Names

/-! ## Reaching definitions -/

namespace Definitions

/-- At first every variable has its value on entry. -/
theorem has_setAt_initial {vars : Variables} {i s : Nat} :
    ((initial vars).setAt i).has s = true ↔ i < vars.length ∧ s = entrySite := by
  by_cases hi : i < vars.length
  · simp [initial, setAt, hi, eq_comm]
  · simp [initial, setAt, hi]

/-- Any part of the sites of a mapping makes a mapping. -/
theorem exists_part {vars : Variables} {m : Definitions} (P : Nat × Nat → Prop)
    (hm : m.Shaped vars) : ∃ n : Definitions, n.Shaped vars ∧
      ∀ f : Nat × Nat, (n.setAt f.1).has f.2 = true ↔ (m.setAt f.1).has f.2 = true ∧ P f := by
  choose part hpart using fun i => BitSet.exists_filter (m.setAt i) fun s => P (i, s)
  refine ⟨(List.range vars.length).map part, by simp [Shaped], fun ⟨i, s⟩ => ?_⟩
  by_cases hi : i < vars.length
  · have hat : setAt ((List.range vars.length).map part) i = part i := by simp [setAt, hi]
    rw [hat]
    exact hpart i s
  · have hlen : m.length = vars.length := hm
    have hbefore : m.setAt i = .empty := by simp [setAt, hlen, Nat.le_of_not_lt hi]
    have hbehind : setAt ((List.range vars.length).map part) i = .empty := by simp [setAt, hi]
    rw [hbefore, hbehind]
    simp

end Definitions

open Definitions in
/-- A fact is that a site has defined a variable; both are given by their numbers. -/
def reachingDefinitionsSeparable {g : Graph} (hg : g.Coherent) :
    (reachingDefinitions g).Separable g (reachingDefinitionsDomain hg) (Nat × Nat) where
  holds m f := (m.setAt f.1).has f.2 = true
  keeps e f := ¬ e.action.Overwrites g.vars f.1
  gives e f := e.action.Defines g.vars f.1 ∧ (f.2 : Int) = e.id + 1
  included_iff hm hn := by
    rw [Prod.forall]
    exact Definitions.included_iff (hm.trans hn.symm)
  holds_transfer {e m n} he hm hn f := by
    obtain ⟨site, -, -, hid⟩ := hg.edge_id he
    obtain ⟨-, hspec⟩ := has_transfer (hg.declared he) hid hm hn
    rw [hspec, hid]
    norm_cast
  exists_part P hm := Definitions.exists_part P hm

variable {q : Nat} {t : Endpoint}

section Sites

variable {g : Graph} (hg : g.Coherent) {x : String} {i : Nat}
  (hx : g.vars.findIdx? (·.name == x) = some i) {es : List Edge}

include hg hx in
theorem forall_not_overwrites_iff (hes : ∀ f ∈ es, f ∈ g.edges) :
    (∀ f ∈ es, ¬ f.action.Overwrites g.vars i) ↔ ∀ f ∈ es, ¬ f.action.WritesScalar x :=
  forall₂_congr fun f hf => not_congr
    (Action.overwrites_iff_writesScalar hx (hg.declared (hes f hf)))

include hx in
/-- An edge is carried to the end as a site: it writes into the variable, and no scalar
definition comes behind. -/
theorem carried_edge_iff (hes : ∀ f ∈ es, f ∈ g.edges) {j : Nat} :
    (reachingDefinitionsSeparable hg).Carried es (i, j + 1) ↔ ∃ e before behind,
      g.edges[j]? = some e ∧ e.action.WritesInto x ∧ es = before ++ e :: behind ∧
        ∀ f ∈ behind, ¬ f.action.WritesScalar x := by
  constructor
  · rintro (⟨hinit, -⟩ | ⟨before, e, behind, rfl, ⟨hdef, hsite⟩, hkeep⟩)
    · have hentry := (Definitions.has_setAt_initial.mp hinit).2
      cases hentry
    · have he : e ∈ g.edges := hes e (by simp)
      obtain ⟨k, -, hk, hid⟩ := hg.edge_id he
      have hkj : k = j := by
        simp only [hid] at hsite
        omega
      subst hkj
      refine ⟨e, before, behind, hk, ?_, rfl, ?_⟩
      · exact (Action.defines_iff_writesInto hx (hg.declared he)).mp hdef
      · exact (forall_not_overwrites_iff hg hx fun f hf => hes f (by simp [hf])).mp hkeep
  · rintro ⟨e, before, behind, hj, hwrites, rfl, hkeep⟩
    have hid : e.id = j := hg.valid.edge_id j e hj
    have he : e ∈ g.edges := Array.mem_of_getElem? hj
    refine .inr ⟨before, e, behind, rfl, ⟨?_, ?_⟩, ?_⟩
    · exact (Action.defines_iff_writesInto hx (hg.declared he)).mpr hwrites
    · rw [hid]
      norm_cast
    · exact (forall_not_overwrites_iff hg hx fun f hf => hes f (by simp [hf])).mpr hkeep

include hx in
/-- The value on entry is carried to the end: no scalar definition comes on the way. -/
theorem carried_entry_iff (hes : ∀ f ∈ es, f ∈ g.edges) :
    (reachingDefinitionsSeparable hg).Carried es (i, Definitions.entrySite) ↔
      ∀ f ∈ es, ¬ f.action.WritesScalar x := by
  rw [← forall_not_overwrites_iff hg hx hes]
  constructor
  · rintro (⟨-, hkeep⟩ | ⟨before, e, behind, rfl, ⟨-, hsite⟩, -⟩)
    · exact hkeep
    · obtain ⟨k, -, -, hid⟩ := hg.edge_id (hes e (by simp))
      have hzero : ((0 : Nat) : Int) = e.id + 1 := hsite
      omega
  · intro hkeep
    have hlt : i < g.vars.length := (List.findIdx?_eq_some_iff_getElem.mp hx).1
    exact .inl ⟨Definitions.has_setAt_initial.mpr ⟨hlt, rfl⟩, hkeep⟩

/-- The least solution at a node: where it is defined, and the sites of a variable there. -/
theorem sites_of_least {V : Values Definitions} (hV : (reachingDefinitionsDomain hg).Least V)
    (hq : q < g.nodes.size) :
    ((V.value q).isSome = true ↔ g.Reachable q) ∧ ∀ m, V.value q = some m → ∀ d ∈ g.vars,
      (∀ j, j ∈ (m.sites g.vars d.name).1 ↔ ∃ e before behind, g.edges[j]? = some e ∧
        e.action.WritesInto d.name ∧ g.Path 0 (before ++ e :: behind) q ∧
          ∀ f ∈ behind, ¬ f.action.WritesScalar d.name) ∧
      ((m.sites g.vars d.name).2 = true ↔ ∃ es, g.Path 0 es q ∧
        ∀ f ∈ es, ¬ f.action.WritesScalar d.name) := by
  obtain ⟨start, n, hlt, hstart, -, hid, hzero, -⟩ := hg.start false
  obtain rfl := hzero rfl
  have hentry : n.id.toNat = 0 := by rw [hid]; rfl
  obtain ⟨hdefined, hholds⟩ := Analysis.Separable.collected_of_least
    (S := reachingDefinitionsSeparable hg) hg hV hstart (by rw [hentry]; exact hlt) hq
  have hforward : (reachingDefinitions g).reverse = false := rfl
  simp only [hentry, Analysis.trail_iff_path hforward] at hdefined hholds
  refine ⟨hdefined, fun m hm d hd => ?_⟩
  obtain ⟨i, hi⟩ : ∃ i, g.vars.findIdx? (·.name == d.name) = some i := by
    rw [← Option.isSome_iff_exists, List.findIdx?_isSome, List.any_eq_true]
    exact ⟨d, hd, by simp⟩
  -- a site is in the set if some path carries it to the node
  have hsite : ∀ s, (m.setAt i).has s = true ↔
      ∃ es, g.Path 0 es q ∧ (reachingDefinitionsSeparable hg).Carried es (i, s) :=
    fun s => (hholds m hm).2 (i, s)
  refine ⟨fun j => ?_, ?_⟩
  · rw [DependenceGraph.mem_sites hi, hsite]
    constructor
    · rintro ⟨es, hes, hcarried⟩
      obtain ⟨e, before, behind, hj, hwrites, rfl, hkeep⟩ :=
        (carried_edge_iff hg hi hes.mem_edges).mp hcarried
      exact ⟨e, before, behind, hj, hwrites, hes, hkeep⟩
    · rintro ⟨e, before, behind, hj, hwrites, hes, hkeep⟩
      exact ⟨_, hes, (carried_edge_iff hg hi hes.mem_edges).mpr
        ⟨e, before, behind, hj, hwrites, rfl, hkeep⟩⟩
  · have hflag : (m.sites g.vars d.name).2 = (m.setAt i).has Definitions.entrySite := by
      rw [Definitions.sites, hi]
    rw [hflag, hsite]
    exact exists_congr fun es => and_congr_right fun hes =>
      carried_entry_iff hg hi hes.mem_edges

end Sites

/--
On a linked graph every solver finds the definitions that reach along paths.  The value at a
node is defined if a path from the entry leads there.  An edge is then among the sites of a
declared variable if some path from the entry makes a definition of the variable with this
edge, possibly of an element or a field, and has no scalar definition of it later; and the
value on entry can hold if some path has no scalar definition at all.
-/
theorem reaching_definitions_along_paths {g : Graph} (hg : g.Linked) {s : SolverKind}
    (hs : s ∈ SolverKind.all) :
    ∃ solution, (reachingDefinitions g).solve g s = .ok solution ∧
      solution.values.size = g.nodes.size ∧ ∀ q, q < g.nodes.size →
        ((solution.values.value q).isSome = true ↔ g.Reachable q) ∧
        ∀ m, solution.values.value q = some m → ∀ d ∈ g.vars,
          (∀ j, j ∈ (m.sites g.vars d.name).1 ↔ ∃ e before behind, g.edges[j]? = some e ∧
            e.action.WritesInto d.name ∧ g.Path 0 (before ++ e :: behind) q ∧
              ∀ f ∈ behind, ¬ f.action.WritesScalar d.name) ∧
          ((m.sites g.vars d.name).2 = true ↔ ∃ es, g.Path 0 es q ∧
            ∀ f ∈ es, ¬ f.action.WritesScalar d.name) := by
  obtain ⟨t, ht⟩ := hg.exists_coherent
  obtain ⟨solution, hsolve, hleast⟩ := Analysis.exists_solve ht (reachingDefinitionsDomain ht) hs
  have hsame : (reachingDefinitions (g.withExit t)).solve (g.withExit t) s =
      (reachingDefinitions g).solve g s := Analysis.solve_withExit rfl s
  refine ⟨solution, hsame ▸ hsolve, hleast.solves.size, fun q hq => ?_⟩
  have hsites := sites_of_least ht hleast hq
  simp only [Graph.Reachable, Graph.path_withExit] at hsites
  exact hsites

/-- The steps of `ringGraph`: a scalar is set, and set again on the way round. -/
def ringStep : Nat → Edge
  | 0 => ⟨0, .listed 0, .listed 1, .assign (.scalar "x") (.literal 1)⟩
  | 1 => ⟨1, .listed 1, .listed 2, .assign (.field "r" .fst) (.scalar "x")⟩
  | 2 => ⟨2, .listed 2, .listed 1, .read (.scalar "x")⟩
  | 3 => ⟨3, .listed 1, .listed 3, .write (.field "r" .snd)⟩
  | _ => ⟨4, .listed 4, .listed 1, .assign (.scalar "x") (.literal 2)⟩

/-- A ring of the nodes 1 and 2, entered from node 0 and left for node 3; nothing leads to
node 4. -/
def ringGraph (exit : Endpoint) : Graph where
  nodes := #[some { id := 0, out := [0] }, some { id := 1, out := [1, 3], into := [0, 2, 4] },
    some { id := 2, out := [2], into := [1] }, some { id := 3, terminal := true, into := [3] },
    some { id := 4, out := [4] }]
  edges := #[ringStep 0, ringStep 1, ringStep 2, ringStep 3, ringStep 4]
  vars := [⟨"x", .scalar, 0⟩, ⟨"r", .record, 0⟩]
  exit := exit

theorem ringGraph_leads :
    (ringGraph t).Leads (ringStep 0) 0 1 ∧ (ringGraph t).Leads (ringStep 1) 1 2 ∧
      (ringGraph t).Leads (ringStep 2) 2 1 ∧ (ringGraph t).Leads (ringStep 3) 1 3 :=
  ⟨⟨by simp [ringGraph], rfl, rfl⟩, ⟨by simp [ringGraph], rfl, rfl⟩,
    ⟨by simp [ringGraph], rfl, rfl⟩, ⟨by simp [ringGraph], rfl, rfl⟩⟩

/-- A path that leaves the entry of `ringGraph` sets the scalar first. -/
theorem ringGraph_first {e : Edge} (h : (ringGraph t).Leads e 0 q) : e = ringStep 0 := by
  have hmem := h.mem
  have hsource := h.source
  simp only [ringGraph, List.mem_toArray, List.mem_cons, List.not_mem_nil, or_false] at hmem
  rcases hmem with rfl | rfl | rfl | rfl | rfl
  · rfl
  all_goals cases hsource

/-- Nothing leads to the last node of `ringGraph`. -/
theorem ringGraph_unreachable : ¬ (ringGraph t).Reachable 4 := by
  have hpaths : ∀ p es q, (ringGraph t).Path p es q → q = 4 → p = 4 := by
    intro p es q hpath
    induction hpath with
    | nil p => exact id
    | @cons e es p q r hfirst _ ih =>
      intro hr
      have hmem := hfirst.mem
      have htarget := hfirst.target
      rw [ih hr] at htarget
      simp only [ringGraph, List.mem_toArray, List.mem_cons, List.not_mem_nil, or_false] at hmem
      rcases hmem with rfl | rfl | rfl | rfl | rfl
      all_goals cases htarget
  rintro ⟨es, hpath⟩
  cases hpaths 0 es 4 hpath rfl

/-- The ring with an exit of its own, which the graph does not list. -/
def looseRing : Graph := ringGraph (.stray { id := 3, terminal := true })

/-- On a graph that does not list its exit: both definitions of the scalar reach node 1, one of
them around the ring, and its value on entry does not; the definition of a field reaches beside
the value on entry; and node 4 has no value. -/
theorem reaching_definitions_along_paths_ring :
    looseRing.Linked ∧ SolverKind.worklist .lifo ∈ SolverKind.all ∧ ∃ solution m,
      (reachingDefinitions looseRing).solve looseRing (.worklist .lifo) = .ok solution ∧
      solution.values.value 4 = none ∧ solution.values.value 1 = some m ∧
      0 ∈ (m.sites looseRing.vars "x").1 ∧ 2 ∈ (m.sites looseRing.vars "x").1 ∧
      (m.sites looseRing.vars "x").2 = false ∧
      1 ∈ (m.sites looseRing.vars "r").1 ∧ (m.sites looseRing.vars "r").2 = true := by
  have hg : looseRing.Linked := by decide +kernel
  have hs : SolverKind.worklist .lifo ∈ SolverKind.all := by decide
  obtain ⟨solution, hsolve, -, hnodes⟩ := reaching_definitions_along_paths hg hs
  obtain ⟨h0, h1, h2, -⟩ : looseRing.Leads (ringStep 0) 0 1 ∧ looseRing.Leads (ringStep 1) 1 2 ∧
    looseRing.Leads (ringStep 2) 2 1 ∧ looseRing.Leads (ringStep 3) 1 3 := ringGraph_leads
  have hround : looseRing.Path 0 [ringStep 0, ringStep 1, ringStep 2] 1 :=
    .cons h0 (.cons h1 (.cons h2 (.nil 1)))
  obtain ⟨hlast, -⟩ := hnodes 4 (by decide)
  obtain ⟨hdefined, hsites⟩ := hnodes 1 (by decide)
  obtain ⟨m, hm⟩ := Option.isSome_iff_exists.mp (hdefined.mpr ⟨_, hround⟩)
  obtain ⟨hscalar, hentry⟩ := hsites m hm ⟨"x", .scalar, 0⟩ (by decide)
  obtain ⟨hfield, hentry'⟩ := hsites m hm ⟨"r", .record, 0⟩ (by decide)
  refine ⟨hg, hs, solution, m, hsolve, ?_, hm, ?_, ?_, ?_, ?_, ?_⟩
  · by_contra hvalue
    exact ringGraph_unreachable (hlast.mp (Option.isSome_iff_ne_none.mpr hvalue))
  · refine (hscalar 0).mpr ⟨ringStep 0, [], [], rfl, ⟨.inl rfl, _, rfl, rfl⟩, ?_, by simp⟩
    exact .cons h0 (.nil 1)
  · exact (hscalar 2).mpr ⟨ringStep 2, [ringStep 0, ringStep 1], [], rfl,
      ⟨.inr rfl, _, rfl, rfl⟩, hround, by simp⟩
  · rw [← Bool.not_eq_true, hentry]
    rintro ⟨es, hpath, hkeep⟩
    cases hpath with
    | @cons e es _ q _ hfirst _ =>
      have hzero := ringGraph_first hfirst
      subst hzero
      exact hkeep _ (List.mem_cons_self ..) ⟨.inl rfl, rfl⟩
  · refine (hfield 1).mpr ⟨ringStep 1, [ringStep 0], [ringStep 2], rfl,
      ⟨.inl rfl, _, rfl, rfl⟩, hround, ?_⟩
    rintro f hf ⟨-, htarget⟩
    rw [List.mem_singleton.mp hf] at htarget
    exact absurd htarget (by decide)
  · refine hentry'.mpr ⟨[ringStep 0], .cons h0 (.nil 1), ?_⟩
    rintro f hf ⟨-, htarget⟩
    rw [List.mem_singleton.mp hf] at htarget
    exact absurd htarget (by decide)

/-! ## Live variables -/

/-- A fact is that a variable is live; it is given by its position. -/
def liveVariablesSeparable {g : Graph} (hg : g.Coherent) :
    (liveVariables g).Separable g (liveVariablesDomain hg) Nat where
  holds m i := m.has i = true
  keeps e i := ¬ e.action.Overwrites g.vars i
  gives e i := e.action.Uses g.vars i
  included_iff _ _ := BitSet.subset_iff
  holds_transfer he _ hn := LiveSet.has_transfer (hg.declared he) hn
  exists_part P _ := by
    obtain ⟨t, ht⟩ := BitSet.exists_filter _ P
    exact ⟨t, trivial, ht⟩

section Live

variable {g : Graph} (hg : g.Coherent) {x : String} {i : Nat}
  (hx : g.vars.findIdx? (·.name == x) = some i) {es : List Edge}

include hx in
/-- A variable is carried to the start of a path: an edge uses it, and no scalar definition
comes before. -/
theorem carried_use_iff (hes : ∀ f ∈ es, f ∈ g.edges) :
    (liveVariablesSeparable hg).Carried es.reverse i ↔ ∃ before e behind,
      es = before ++ e :: behind ∧ e.action.Mentions x ∧
        ∀ f ∈ before, ¬ f.action.WritesScalar x := by
  constructor
  · rintro (⟨hinit, -⟩ | ⟨front, e, back, heq, huse, hkeep⟩)
    · have hnone : BitSet.empty.has i = true := hinit
      rw [BitSet.has_empty] at hnone
      cases hnone
    · have heq' : es = back.reverse ++ e :: front.reverse := by
        rw [← List.reverse_reverse es, heq]
        simp
      subst heq'
      refine ⟨back.reverse, e, front.reverse, rfl, ?_, ?_⟩
      · exact (Action.uses_iff_mentions hx (hg.declared (hes e (by simp)))).mp huse
      · refine (forall_not_overwrites_iff hg hx fun f hf => hes f (List.mem_append_left _ hf)).mp ?_
        exact fun f hf => hkeep f (List.mem_reverse.mp hf)
  · rintro ⟨before, e, behind, rfl, huse, hkeep⟩
    refine .inr ⟨behind.reverse, e, before.reverse, by simp, ?_, ?_⟩
    · exact (Action.uses_iff_mentions hx (hg.declared (hes e (by simp)))).mpr huse
    · have hkeep' := (forall_not_overwrites_iff hg hx fun f hf => hes f (by simp [hf])).mpr hkeep
      exact fun f hf => hkeep' f (List.mem_reverse.mp hf)

/-- The least solution at a node: where it is defined, and the variables that are live there. -/
theorem live_of_least {V : Values LiveSet} (hV : (liveVariablesDomain hg).Least V)
    (hq : q < g.nodes.size) :
    ((V.value q).isSome = true ↔ g.ReachesExit q) ∧ ∀ m, V.value q = some m → ∀ x,
      (LiveSet.isLive g.vars m x = true ↔ ∃ t before e behind, g.exit = .listed t ∧
        g.Path q (before ++ e :: behind) t ∧ e.action.Mentions x ∧
          ∀ f ∈ before, ¬ f.action.WritesScalar x) := by
  obtain ⟨t, n, hlt, hstart, -, hid, -, hexit⟩ := hg.start true
  have hslot : n.id.toNat = t := by rw [hid]; rfl
  obtain ⟨hdefined, hholds⟩ := Analysis.Separable.collected_of_least
    (S := liveVariablesSeparable hg) hg hV hstart (by rw [hslot]; exact hlt) hq
  have hbackward : (liveVariables g).reverse = true := rfl
  simp only [hslot, Analysis.trail_iff_path_reverse hbackward] at hdefined hholds
  constructor
  · rw [hdefined]
    constructor
    · rintro ⟨es, hes⟩
      exact ⟨t, es.reverse, hexit rfl, hes⟩
    · rintro ⟨t', es, ht', hes⟩
      cases (hexit rfl).symm.trans ht'
      exact ⟨es.reverse, by simpa using hes⟩
  · intro m hm x
    cases hi : g.vars.findIdx? (·.name == x) with
    | none =>
      -- a name that is not declared is never live, and no action uses it
      have hdead : LiveSet.isLive g.vars m x = false := by rw [LiveSet.isLive, hi]
      rw [hdead]
      refine iff_of_false (by simp) ?_
      rintro ⟨t', before, e, behind, -, hpath, ⟨use, huse, rfl⟩, -⟩
      obtain ⟨j, hj⟩ := (hg.declared (hpath.mem_edges e (by simp))).use huse
      obtain ⟨-, -, -, -, hindex⟩ := Variables.of_eq_some hj
      rw [hi] at hindex
      cases hindex
    | some i =>
      have hlive : LiveSet.isLive g.vars m x = m.has i := by rw [LiveSet.isLive, hi]
      have hfact : m.has i = true ↔ _ := (hholds m hm).2 i
      -- a declared name stands for its position
      rw [hlive, hfact]
      constructor
      · rintro ⟨es, hes, hcarried⟩
        rw [← List.reverse_reverse es] at hcarried
        obtain ⟨before, e, behind, heq, huse, hkeep⟩ :=
          (carried_use_iff hg hi hes.mem_edges).mp hcarried
        exact ⟨t, before, e, behind, hexit rfl, heq ▸ hes, huse, hkeep⟩
      · rintro ⟨t', before, e, behind, ht', hpath, huse, hkeep⟩
        cases (hexit rfl).symm.trans ht'
        refine ⟨(before ++ e :: behind).reverse, by rwa [List.reverse_reverse], ?_⟩
        exact (carried_use_iff hg hi hpath.mem_edges).mpr ⟨before, e, behind, rfl, huse, hkeep⟩

end Live

/--
On a coherent graph every solver finds the variables that are live along paths.  The value at
a node is defined if a path leads from it to the exit.  A variable is then live if some path
from the node to the exit has an edge that uses it, and no edge before that one assigns or
reads into it as a scalar.
-/
theorem live_variables_along_paths {g : Graph} (hg : g.Coherent) {s : SolverKind}
    (hs : s ∈ SolverKind.all) :
    ∃ solution, (liveVariables g).solve g s = .ok solution ∧
      solution.values.size = g.nodes.size ∧ ∀ q, q < g.nodes.size →
        ((solution.values.value q).isSome = true ↔ g.ReachesExit q) ∧
        ∀ m, solution.values.value q = some m → ∀ x,
          (LiveSet.isLive g.vars m x = true ↔ ∃ t before e behind, g.exit = .listed t ∧
            g.Path q (before ++ e :: behind) t ∧ e.action.Mentions x ∧
              ∀ f ∈ before, ¬ f.action.WritesScalar x) := by
  obtain ⟨solution, hsolve, hleast⟩ := Analysis.exists_solve hg (liveVariablesDomain hg) hs
  exact ⟨solution, hsolve, hleast.solves.size, fun q hq => live_of_least hg hleast hq⟩

/-- On the ring with node 3 for its exit: the scalar is live at node 1, where the ring uses it,
and not at the entry, where it is set first; the record is live at the entry, though one of its
fields is set on the way round. -/
theorem live_variables_along_paths_ring :
    (ringGraph (.listed 3)).Coherent ∧ SolverKind.worklist .roundRobin ∈ SolverKind.all ∧
      ∃ solution m n, (liveVariables (ringGraph (.listed 3))).solve (ringGraph (.listed 3))
        (.worklist .roundRobin) = .ok solution ∧
      solution.values.value 1 = some m ∧ LiveSet.isLive (ringGraph (.listed 3)).vars m "x" = true ∧
      solution.values.value 0 = some n ∧
      LiveSet.isLive (ringGraph (.listed 3)).vars n "x" = false ∧
      LiveSet.isLive (ringGraph (.listed 3)).vars n "r" = true := by
  have hg : (ringGraph (.listed 3)).Coherent := by decide +kernel
  have hs : SolverKind.worklist .roundRobin ∈ SolverKind.all := by decide
  obtain ⟨solution, hsolve, -, hnodes⟩ := live_variables_along_paths hg hs
  obtain ⟨h0, h1, h2, h3⟩ := ringGraph_leads (t := .listed 3)
  have hround : (ringGraph (.listed 3)).Path 1 [ringStep 1, ringStep 2, ringStep 3] 3 :=
    .cons h1 (.cons h2 (.cons h3 (.nil 3)))
  obtain ⟨hdefined, hlive⟩ := hnodes 1 (by decide)
  obtain ⟨m, hm⟩ := Option.isSome_iff_exists.mp (hdefined.mpr ⟨3, _, rfl, hround⟩)
  obtain ⟨hdefined', hlive'⟩ := hnodes 0 (by decide)
  obtain ⟨n, hn⟩ := Option.isSome_iff_exists.mp (hdefined'.mpr ⟨3, _, rfl, .cons h0 hround⟩)
  refine ⟨hg, hs, solution, m, n, hsolve, hm, ?_, hn, ?_, ?_⟩
  · refine (hlive m hm "x").mpr ⟨3, [], ringStep 1, _, rfl, hround, ?_, by simp⟩
    exact ⟨.scalar "x", by decide, rfl⟩
  · rw [← Bool.not_eq_true, hlive' n hn "x"]
    rintro ⟨t, before, e, behind, -, hpath, ⟨use, huse, -⟩, hkeep⟩
    -- the first step uses nothing, and overwrites the scalar
    cases before with
    | nil =>
      cases hpath with
      | cons hfirst _ =>
        have hzero := ringGraph_first hfirst
        subst hzero
        cases huse
    | cons f before =>
      cases hpath with
      | cons hfirst _ =>
        have hzero := ringGraph_first hfirst
        subst hzero
        exact hkeep _ (List.mem_cons_self ..) ⟨.inl rfl, rfl⟩
  · refine (hlive' n hn "r").mpr ⟨3, [ringStep 0, ringStep 1, ringStep 2], ringStep 3, [], rfl,
      .cons h0 hround, ⟨.field "r" .snd, by decide, rfl⟩, ?_⟩
    rintro f hf ⟨-, htarget⟩
    simp only [List.mem_cons, List.not_mem_nil, or_false] at hf
    rcases hf with rfl | rfl | rfl
    all_goals exact absurd htarget (by decide)

end MicroFlow
