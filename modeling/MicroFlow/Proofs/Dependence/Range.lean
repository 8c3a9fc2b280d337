import MicroFlow.Proofs.Dependence.Slice

/-!
# Dependences and slices stay in range

The dependences of a coherent graph run between edges of the graph (`ofGraph_listed`): the sites
of definitions that reach a node are edges, and so are guards.  A slice is found by following
dependences from an edge, so it consists of edges of the graph (`slice_listed`).
-/

namespace MicroFlow

/-- The number is the position of an edge of the graph. -/
def Graph.ListsEdge (g : Graph) (x : Int) : Prop := ∃ i, i < g.edges.size ∧ x = (i : Int)

variable {e : Edge}

theorem Graph.Coherent.listsEdge {g : Graph} (hg : g.Coherent) (he : e ∈ g.edges) :
    g.ListsEdge e.id := by
  obtain ⟨i, hi, -, hid⟩ := hg.edge_id he
  exact ⟨i, hi, hid⟩

namespace DependenceGraph

variable {g : Graph}

/-- Data dependences come from edges of the graph. -/
theorem dataDependences_listed (hg : g.Coherent) {m : Definitions} (he : e ∈ g.edges)
    (hm : ∀ i, (m.setAt i).Within (g.edges.size + 1)) :
    ∀ x ∈ dataDependences g.vars (some m) e, g.ListsEdge x.source ∧ g.ListsEdge x.target := by
  intro x hx
  simp only [dataDependences, List.mem_flatMap, List.mem_map] at hx
  obtain ⟨y, -, site, hsite, rfl⟩ := hx
  refine ⟨⟨site, ?_, rfl⟩, hg.listsEdge he⟩
  cases hy : g.vars.findIdx? (·.name == y) with
  | none => simp [Definitions.sites, hy] at hsite
  | some i =>
    have hlt := hm i (site + 1) ((mem_sites hy).mp hsite)
    omega

/-- So do control dependences. -/
theorem controlDependences_listed (hg : g.Coherent) {sets : DominatorSets}
    (he : e ∈ g.edges) {ds : List Dependence} (h : controlDependences g sets e = .ok ds) :
    ∀ x ∈ ds, g.ListsEdge x.source ∧ g.ListsEdge x.target := by
  simp only [controlDependences, bind_eq_ok] at h
  obtain ⟨n, -, guards, hguards, h⟩ := h
  cases h
  intro x hx
  obtain ⟨guard, hguard, rfl⟩ := List.mem_map.mp hx
  have hmem := mem_of_filterM_eq_ok hguards guard hguard
  exact ⟨hg.listsEdge (by simpa using List.mem_of_mem_filter hmem), hg.listsEdge he⟩

/-- The dependences of an edge: those by data on the definitions that reach its start, and those by
control. -/
theorem dependencesOf_cases (hg : g.Coherent) {values : Values Definitions}
    (hvalues : values.size = g.nodes.size) {sets : DominatorSets} (he : e ∈ g.edges)
    {ds : List Dependence} (h : dependencesOf g values sets e = .ok ds) :
    ∃ p cs, p < g.nodes.size ∧ e.source = .listed p ∧ controlDependences g sets e = .ok cs ∧
      ds = dataDependences g.vars (values.value p) e ++ cs := by
  obtain ⟨p, q, hp, -, hs, ht⟩ := hg.ends_listed he
  have hcontrol := h
  simp only [dependencesOf, bind_eq_ok] at hcontrol
  obtain ⟨-, -, -, -, cs, hcs, -⟩ := hcontrol
  rw [dependencesOf_eq_ok hg hvalues ⟨he, hs, ht⟩ hcs] at h
  exact ⟨p, cs, hp, hs, hcs, (Except.ok.inj h).symm⟩

variable {d : DependenceGraph}

/-- The dependence graph lists the dependences of each edge, from the least solution of the
reaching definitions. -/
theorem ofGraph_cases (hg : g.Coherent) (h : ofGraph g = .ok d) :
    ∃ (V : Values Definitions) (sets : DominatorSets) (lists : List (List Dependence)),
      (reachingDefinitionsDomain hg).Least V ∧ d.dependences = lists.flatten ∧
        g.edges.toList.mapM (dependencesOf g V sets) = .ok lists := by
  simp only [ofGraph, bind_eq_ok] at h
  obtain ⟨solution, hsolution, sets, -, lists, hlists, h⟩ := h
  obtain ⟨solution', -, hsolution', hleast, -⟩ :=
    Analysis.Domain.chaotic_least hg (reachingDefinitionsDomain hg)
  cases hsolution.symm.trans hsolution'
  cases h
  exact ⟨solution.values, sets, lists, hleast, rfl, hlists⟩

/-- The ends of every dependence are edges of the graph. -/
theorem ofGraph_listed (hg : g.Coherent) (h : ofGraph g = .ok d) :
    d.program = g ∧ ∀ x ∈ d.dependences, g.ListsEdge x.source ∧ g.ListsEdge x.target := by
  refine ⟨program_ofGraph h, fun x hx => ?_⟩
  obtain ⟨V, sets, lists, hV, hdeps, hlists⟩ := ofGraph_cases hg h
  rw [hdeps] at hx
  obtain ⟨ds, hds, hx⟩ := List.mem_flatten.mp hx
  obtain ⟨e, he, hok⟩ := (mem_of_mapM_eq_ok hlists).1 ds hds
  have hedge : e ∈ g.edges := by simpa using he
  obtain ⟨p, cs, -, -, hcs, rfl⟩ := dependencesOf_cases hg hV.solves.size hedge hok
  rcases List.mem_append.mp hx with hx | hx
  · cases hm : V.value p with
    | none =>
      rw [hm] at hx
      cases hx
    | some m =>
      rw [hm] at hx
      exact dataDependences_listed hg hedge (hV.proper p m hm).2 x hx
  · exact controlDependences_listed hg hedge hcs x hx

/-- The slice of an edge, in either direction and for any variable, consists of edges. -/
theorem slice_listed (hg : g.Coherent) (h : ofGraph g = .ok d)
    (dir : Direction) (only : Option String) {i : Nat} (hi : i < g.edges.size) :
    ∃ S, d.slice dir only i = some S ∧ ∀ x ∈ S, g.ListsEdge x := by
  obtain ⟨hprogram, hlisted⟩ := ofGraph_listed hg h
  obtain ⟨S, hS, -, hmem⟩ := d.exists_slice dir only (hprogram ▸ hi)
  refine ⟨S, hS, fun x hx => ?_⟩
  -- the edge itself, or where the last step of a chain leads
  obtain rfl | ⟨y, -, hstep⟩ := ((hmem x).mp hx).cases_tail
  · exact ⟨i, hi, rfl⟩
  · cases dir with
    | backward =>
      obtain ⟨a, ha, rfl, -⟩ := mem_neighbours_backward.mp hstep
      exact (hlisted a ha).1
    | forward =>
      obtain ⟨a, ha, -, rfl, -⟩ := mem_neighbours_forward.mp hstep
      exact (hlisted a ha).2

end DependenceGraph

end MicroFlow
