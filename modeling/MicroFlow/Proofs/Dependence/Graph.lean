import MicroFlow.Dependence.Graph
import MicroFlow.Proofs.Dependence.Noninterference
import MicroFlow.Proofs.Dependence.PostDominators
import MicroFlow.Proofs.Flow.Fixpoint
import MicroFlow.Proofs.Flow.ReachingDefinitions

/-!
# Dependence graphs hold every dependence

On a coherent graph the dependence graph is built, and no dependence is missing
(`DependenceGraph.Complete`): neither of a use on a definition whose value reaches it along
some path, nor of an action on a guard that decides whether its starting point is passed.
-/

namespace MicroFlow

variable {g : Graph}

/-! ## Definitions that reach a node -/

variable {j p q i : Nat} {e : Edge} {m : Definitions} {u : Access}

section Reaching

variable (hg : g.Coherent) {V : Values Definitions}
  (hV : (reachingDefinitionsDomain hg).Least V)

include hg hV

/-- Definitions are carried along an edge that does not overwrite them, and added by one that
defines. -/
theorem reaching_step (hj : g.edges[j]? = some e) (he : g.Leads e p q) (hm : V.value p = some m) :
    ∃ n, V.value q = some n ∧ ∀ i s, (m.setAt i).has s = true ∧ ¬ e.action.Overwrites g.vars i ∨
      e.action.Defines g.vars i ∧ s = j + 1 → (n.setAt i).has s = true := by
  obtain ⟨v, hv, hle⟩ := hV.solves.edge e he.mem p q he.source he.target
  rw [hm] at hv
  obtain ⟨x, rfl, hx⟩ := Analysis.Domain.apply_some hv
  obtain ⟨n, hn, hxn⟩ := Analysis.leq_some_iff.mp hle
  obtain ⟨hshaped, hspec⟩ := Definitions.has_transfer (hg.declared he.mem)
    (hg.valid.edge_id j e hj) (hV.proper p m hm).1 hx
  have hlen : x.length = n.length := hshaped.trans (hV.proper q n hn).1.symm
  refine ⟨n, hn, fun i s hs => ?_⟩
  exact (Definitions.included_iff hlen).mp hxn i s ((hspec i s).mpr hs)

/-- A value is passed on along paths. -/
theorem exists_value_of_path {es : List Edge} (h : g.Path p es q)
    (hp : ∃ m, V.value p = some m) : ∃ m, V.value q = some m := by
  induction h with
  | nil => exact hp
  | @cons e es p q r hfirst _ ih =>
    obtain ⟨m, hm⟩ := hp
    obtain ⟨j, hj⟩ := Array.mem_iff_getElem?.mp hfirst.mem
    obtain ⟨n, hn, -⟩ := reaching_step hg hV hj hfirst hm
    exact ih ⟨n, hn⟩

/-- So every reachable node has one. -/
theorem exists_value_of_reachable (h : g.Reachable p) : ∃ m, V.value p = some m := by
  obtain ⟨es, hes⟩ := h
  refine exists_value_of_path hg hV hes ?_
  obtain ⟨i, n, -, hstart, -, hid, hzero, -⟩ := hg.start false
  have hle := hV.solves.start n hstart
  rw [hid, hzero rfl] at hle
  obtain ⟨m, hm, -⟩ := Analysis.leq_some_iff.mp hle
  exact ⟨m, hm⟩

/-- A site of a variable is carried to the end of a path that does not replace the variable. -/
theorem has_site_of_carries {s : Nat} (hu : g.vars.of u = some i)
    (h : g.Carries u.var p q) (hm : V.value p = some m)
    (hs : (m.setAt i).has s = true) : ∃ n, V.value q = some n ∧ (n.setAt i).has s = true := by
  obtain ⟨es, hpath, hes⟩ := h
  induction hpath generalizing m with
  | nil => exact ⟨m, hm, hs⟩
  | @cons e es p q r hfirst _ ih =>
    obtain ⟨j, hj⟩ := Array.mem_iff_getElem?.mp hfirst.mem
    obtain ⟨n, hn, hpass⟩ := reaching_step hg hV hj hfirst hm
    have hkeep : ¬ e.action.Overwrites g.vars i := fun hover =>
      hes e (List.mem_cons_self ..) (hover.replaces hu)
    exact ih hn (hpass i s (.inl ⟨hs, hkeep⟩)) fun f hf => hes f (List.mem_cons_of_mem _ hf)

/-- The definition on an edge reaches every node to which its value can be carried. -/
theorem has_site_of_writes {n : Nat} {f : Edge} (hj : g.edges[j]? = some f)
    (hf : g.Leads f p q) (hp : g.Reachable p) (hu : g.vars.of u = some i)
    (hwrites : f.action.Writes u.var) (hcarries : g.Carries u.var q n) :
    ∃ m, V.value n = some m ∧ (m.setAt i).has (j + 1) = true := by
  obtain ⟨m, hm⟩ := exists_value_of_reachable hg hV hp
  obtain ⟨m', hm', hpass⟩ := reaching_step hg hV hj hf hm
  obtain ⟨d, hd, hdu⟩ := hwrites
  have hdefines : f.action.Defines g.vars i := ⟨d, hd, (Variables.of_eq_of_var hdu).trans hu⟩
  exact has_site_of_carries hg hV hu hcarries hm' (hpass i (j + 1) (.inr ⟨hdefines, rfl⟩))

end Reaching

/-! ## The dependences of one edge -/

namespace DependenceGraph

theorem mem_firstNames {x : String} {xs : List String} : x ∈ firstNames xs ↔ x ∈ xs := by
  induction xs with
  | nil => rfl
  | cons y ys ih =>
    rw [firstNames, List.mem_cons, List.mem_cons, List.mem_filter, ih]
    by_cases hxy : x = y
    · simp [hxy]
    · simp [hxy]

/-- The sites of a variable are the elements of its set, which are counted from one. -/
theorem mem_sites {vars : Variables} {x : String} (hx : vars.findIdx? (·.name == x) = some i) :
    j ∈ (m.sites vars x).1 ↔ (m.setAt i).has (j + 1) = true := by
  unfold Definitions.sites
  rw [hx]
  simp only [List.mem_filterMap, BitSet.mem_members]
  constructor
  · rintro ⟨s, hs, hj⟩
    split at hj
    · cases hj
    · rename_i hne
      cases hj
      have hs' : s - 1 + 1 = s := by
        unfold Definitions.entrySite at hne
        omega
      rw [hs']
      exact hs
  · intro hs
    exact ⟨j + 1, hs, by simp [Definitions.entrySite]⟩

/-- A site of a variable that the edge uses is listed. -/
theorem mem_dataDependences {vars : Variables}
    (hu : u ∈ e.action.uses) (hi : vars.of u = some i) (hj : (m.setAt i).has (j + 1) = true) :
    ⟨j, e.id, .data, u.name⟩ ∈ dataDependences vars (some m) e := by
  obtain ⟨-, -, -, -, hindex⟩ := Variables.of_eq_some hi
  simp only [dataDependences, List.mem_flatMap, List.mem_map]
  refine ⟨u.name, mem_firstNames.mpr (List.mem_map_of_mem hu), j, ?_, rfl⟩
  exact (mem_sites hindex).mpr hj

variable {sets : DominatorSets} {x : Nat}

/-- Whether a guard controls a node is read off the sets of its ends. -/
theorem controls_eq_ok (hg : g.Coherent) (hsize : sets.size = g.nodes.size)
    {guard : Edge} (h : g.Leads guard p q) :
    controls g sets x guard = .ok ((sets.setAt q).has x && !(sets.setAt p).has x) := by
  obtain ⟨hp, hq⟩ := h.lt hg
  unfold controls
  rw [hg.ends h.mem h.source h.target]
  simp only [bind, Except.bind, Graph.dominatorsAt_eq_ok (hsize ▸ hp),
    Graph.dominatorsAt_eq_ok (hsize ▸ hq)]
  cases hx : (sets.setAt q).has x with
  | true | false => simp [hx, pure, Except.pure]

theorem exists_controls (hg : g.Coherent) (hsize : sets.size = g.nodes.size)
    (x : Nat) : ∀ f ∈ g.edges.toList.filter (·.action.kind == .boolean),
      ∃ b, controls g sets x f = .ok b := by
  intro f hf
  have hin : f ∈ g.edges := by simpa using List.mem_of_mem_filter hf
  obtain ⟨p, q, -, -, hs, ht⟩ := hg.ends_listed hin
  exact ⟨_, controls_eq_ok hg hsize ⟨hin, hs, ht⟩⟩

/-- The control dependences of an edge are found, with every guard that passes the test. -/
theorem exists_controlDependences (hg : g.Coherent)
    (hsize : sets.size = g.nodes.size) {y : Nat} (he : g.Leads e x y) :
    ∃ ds, controlDependences g sets e = .ok ds ∧ ∀ guard ∈ g.edges,
      guard.action.kind = .boolean → controls g sets x guard = .ok true →
        ⟨guard.id, e.id, .control, guard.action.shown⟩ ∈ ds := by
  obtain ⟨n, hn, -, hid⟩ := hg.endNode (he.lt hg).1
  obtain ⟨guards, hguards, hmem⟩ := exists_filterM_eq_ok (exists_controls hg hsize x)
  refine ⟨guards.map fun guard => ⟨guard.id, e.id, .control, guard.action.shown⟩, ?_,
    fun guard hin hkind hcontrols => ?_⟩
  · rw [controlDependences, he.source]
    simp only [bind, Except.bind, hn, hid, hguards]
    rfl
  · refine List.mem_map.mpr ⟨guard, (hmem guard).mpr ⟨?_, hcontrols⟩, rfl⟩
    simp [hin, hkind]

/-- The dependences of an edge are those by data, followed by those by control. -/
theorem dependencesOf_eq_ok (hg : g.Coherent) {values : Values Definitions}
    (hvalues : values.size = g.nodes.size) {y : Nat}
    (he : g.Leads e x y) {cs : List Dependence} (hcs : controlDependences g sets e = .ok cs) :
    dependencesOf g values sets e = .ok (dataDependences g.vars (values.value x) e ++ cs) := by
  have hx : x < g.nodes.size := (he.lt hg).1
  obtain ⟨n, hn, -, hid⟩ := hg.endNode hx
  rw [dependencesOf, he.source]
  simp only [bind, Except.bind, hn, hid, Analysis.valueAt_eq_ok (hvalues ▸ hx), hcs]
  rfl

/-! ## The whole graph -/

/-- Every dependence of a use on a definition, and of an action on a guard, is in the graph. -/
structure Complete (d : DependenceGraph) (g : Graph) : Prop where
  data : ∀ {i j p q n : Nat} {e f : Edge} {u : Access}, g.edges[j]? = some f → g.Leads f p q →
    g.Reachable p → f.action.Writes u.var → g.Carries u.var q n → g.edges[i]? = some e →
    e.source = .listed n → u ∈ e.action.uses → ⟨j, i, .data, u.name⟩ ∈ d.dependences
  control : ∀ {i j p q n : Nat} {e f : Edge}, g.edges[j]? = some f → g.Leads f p q →
    f.action.kind = .boolean → g.PostDominates n q → ¬ g.PostDominates n p →
    g.edges[i]? = some e → e.source = .listed n →
    ⟨j, i, .control, f.action.shown⟩ ∈ d.dependences

/-- The whole graph. -/
theorem ofGraph_eq_ok (hg : g.Coherent) :
    ∃ d, ofGraph g = .ok d ∧ d.program = g ∧ d.Complete g := by
  obtain ⟨solution, -, hsolve, hV, -⟩ :=
    Analysis.Domain.chaotic_least hg (reachingDefinitionsDomain hg)
  obtain ⟨sets, hsets, hsize, hspec⟩ := Graph.postDominators_eq_ok hg
  have heach : ∀ e ∈ g.edges.toList, ∃ ds, dependencesOf g solution.values sets e = .ok ds := by
    intro e he
    obtain ⟨x, y, -, -, hs, ht⟩ := hg.ends_listed (by simpa using he)
    have hleads : g.Leads e x y := ⟨by simpa using he, hs, ht⟩
    obtain ⟨cs, hcs, -⟩ := exists_controlDependences hg hsize hleads
    exact ⟨_, dependencesOf_eq_ok hg hV.solves.size hleads hcs⟩
  obtain ⟨lists, hlists⟩ := exists_mapM_eq_ok heach
  -- what is listed for an edge is in the graph
  have hlisted : ∀ {i n : Nat} {e : Edge}, g.edges[i]? = some e → e.source = .listed n →
      ∃ y cs, g.Leads e n y ∧ controlDependences g sets e = .ok cs ∧
        ∀ d ∈ dataDependences g.vars (solution.values.value n) e ++ cs, d ∈ lists.flatten := by
    intro i n e hi hs
    have he : e ∈ g.edges := Array.mem_of_getElem? hi
    obtain ⟨y, -, ht⟩ := hg.valid.target e he
    obtain ⟨cs, hcs, -⟩ := exists_controlDependences hg hsize ⟨he, hs, ht⟩
    obtain ⟨ds, hds, hok⟩ := (mem_of_mapM_eq_ok hlists).2 e (by simpa using he)
    rw [dependencesOf_eq_ok hg hV.solves.size ⟨he, hs, ht⟩ hcs] at hok
    cases hok
    exact ⟨y, cs, ⟨he, hs, ht⟩, hcs, fun d hd => List.mem_flatten.mpr ⟨_, hds, hd⟩⟩
  refine ⟨⟨g, lists.flatten⟩, ?_, rfl, ?_, ?_⟩
  · rw [ofGraph, hsolve]
    simp only [bind, Except.bind, hsets, hlists]
    rfl
  · intro i j p q n e f u hj hf hp hwrites hcarries hi hs hu
    obtain ⟨y, cs, he, -, hmem⟩ := hlisted hi hs
    obtain ⟨v, hv⟩ := (hg.declared he.mem).use hu
    obtain ⟨m, hm, hsite⟩ := has_site_of_writes hg hV hj hf hp hv hwrites hcarries
    refine hmem _ (List.mem_append_left _ ?_)
    rw [hm, ← hg.valid.edge_id i e hi]
    exact mem_dataDependences hu hv hsite
  · intro i j p q n e f hj hf hkind hq hp hi hs
    obtain ⟨y, cs, he, hcs, hmem⟩ := hlisted hi hs
    obtain ⟨cs', hcs', hguards⟩ := exists_controlDependences hg hsize he
    rw [hcs] at hcs'
    cases hcs'
    have hn : n < g.nodes.size := (he.lt hg).1
    have hcontrols : controls g sets n f = .ok true := by
      rw [controls_eq_ok hg hsize hf]
      have hq' := (hspec q n (hf.lt hg).2 hn).mpr hq
      have hp' := (not_congr (hspec p n (hf.lt hg).1 hn)).mpr hp
      simp [hq', hp']
    have hcontrol := hguards f hf.mem hkind hcontrols
    rw [hg.valid.edge_id i e hi, hg.valid.edge_id j f hj] at hcontrol
    exact hmem _ (List.mem_append_right _ hcontrol)

end DependenceGraph

end MicroFlow
