import MicroFlow.Proofs.Dependence.PostDominators
import MicroFlow.Proofs.Flow.Loop

/-!
# The search for post-dominators stops

`postDominators` is written with fuel.  Here it is a loop without any: round after round of
visits (`Round`), up to one that changes nothing (`Calm`).  A round that changes something
makes the sets smaller, so the loop ends by itself (`Narrowing.exists_calm`), and what it
ends with is what `postDominators` returns.

Main statement: `postDominators_exact` — the loop stops, and the set of a node then holds
exactly the nodes that all paths from it to the exit visit.
-/

namespace MicroFlow.Graph

open Relation (ReflTransGen)

variable {g : Graph}

/-- A round of visits that changes a set, so that another one follows. -/
def Round (g : Graph) (exit : Nat) (order : List Nat) (sets sets' : DominatorSets) : Prop :=
  g.narrowSets exit sets false order = .ok (sets', true)

/-- A round of visits changes nothing: the loop ends here. -/
def Calm (g : Graph) (exit : Nat) (order : List Nat) (sets : DominatorSets) : Prop :=
  g.narrowSets exit sets false order = .ok (sets, false)

variable {exit : Nat} {order : List Nat}

/-- A round has one result. -/
theorem Round.unique {r s t : DominatorSets}
    (hs : g.Round exit order r s) (ht : g.Round exit order r t) : s = t := by
  have heq := hs.symm.trans ht
  cases heq
  rfl

/-- There is no round after a calm one. -/
theorem Calm.stuck {s : DominatorSets} (h : g.Calm exit order s)
    (t : DominatorSets) : ¬ g.Round exit order s t := by
  intro hround
  cases h.symm.trans hround

/-- Rounds lead to sets that stay as they are, and with enough fuel `narrowRounds` finds them. -/
theorem Narrowing.exists_calm (hg : g.Coherent)
    (horder : ∀ v ∈ order, v < g.nodes.size) (fuel : Nat) : ∀ {sets : DominatorSets},
    g.Narrowing exit sets → g.spreadOf sets < fuel →
    ∃ last, ReflTransGen (g.Round exit order) sets last ∧ g.Calm exit order last ∧
      g.narrowRounds exit order fuel sets = .ok last := by
  induction fuel with
  | zero =>
    intro sets _ hfuel
    cases hfuel
  | succ fuel ih =>
    intro sets h hfuel
    obtain ⟨sets', changed, hround, h', -, htrue, hfalse⟩ := narrowSets hg order false h horder
    by_cases hchanged : changed = true
    · subst hchanged
      have hlt : g.spreadOf sets' < g.spreadOf sets := (htrue rfl).resolve_left (by simp)
      obtain ⟨last, hrun, hcalm, hlast⟩ := ih h' (by omega)
      refine ⟨last, .head hround hrun, hcalm, ?_⟩
      rw [Graph.narrowRounds, hround]
      exact hlast
    · rw [Bool.not_eq_true] at hchanged
      subst hchanged
      obtain ⟨-, rfl, -⟩ := hfalse rfl
      refine ⟨sets', .refl, hround, ?_⟩
      rw [Graph.narrowRounds, hround]
      rfl

/-- The loop ends with the sets that `postDominators` returns. -/
theorem exists_postDominators_calm (hg : g.Coherent) : ∃ exit ord sets, g.exit = .listed exit ∧
    g.depthFirst true = .ok ord ∧ g.postDominators = .ok sets ∧
    ReflTransGen (g.Round exit ord.order) (g.widest exit) sets ∧ g.Calm exit ord.order sets := by
  obtain ⟨exit, n, hlt, hstart, -, hid, -, hexit⟩ := hg.start true
  obtain ⟨ord, hord, hmem⟩ := hg.depthFirst_eq_ok true
  have hspread := g.spreadOf_le (g.widest exit)
  obtain ⟨sets, hrun, hcalm, hsets⟩ := Narrowing.exists_calm hg (fun v hv => (hmem v).mp hv)
    (g.nodes.size * g.nodes.size + 1) (Narrowing.start hg (hexit rfl) hlt) (by omega)
  refine ⟨exit, ord, sets, hexit rfl, hord, ?_, hrun, hcalm⟩
  have hnode : g.exitNode = .ok n := hstart
  simp only [postDominators, hnode, hid, slotOf_natCast hlt, hord, bind, Except.bind]
  exact hsets

/-- The search for post-dominators ends, with sets of nodes. -/
theorem Coherent.exists_postDominators (hg : g.Coherent) : ∃ exit ord sets,
    g.depthFirst true = .ok ord ∧ g.postDominators = .ok sets ∧
    ReflTransGen (g.Round exit ord.order) (g.widest exit) sets ∧ g.Calm exit ord.order sets ∧
    sets.size = g.nodes.size ∧ ∀ v x, (sets.setAt v).has x = true → x < g.nodes.size := by
  obtain ⟨exit, ord, sets, -, hord, hsets, hrun, hcalm⟩ := exists_postDominators_calm hg
  obtain ⟨_, sets', -, hsets', hnarrowing, -⟩ := postDominators_narrowing hg
  cases hsets.symm.trans hsets'
  exact ⟨exit, ord, sets, hord, hsets, hrun, hcalm, hnarrowing.size, hnarrowing.within⟩

/-- Without a path to the exit, everything post-dominates. -/
theorem PostDominates.of_not_reachesExit {x v : Nat} (h : ¬ g.ReachesExit v) :
    g.PostDominates x v := by
  intro t es hexit hpath
  exact absurd ⟨t, es, hexit, hpath⟩ h

/--
On a coherent graph the search for post-dominators stops: whatever rounds have been made,
more of them lead to the sets that `postDominators` returns, and a further round changes
nothing.  The set of a node then holds exactly the nodes of the graph that every path from
it to the exit visits, and so all nodes when no path leads there.
-/
theorem postDominators_exact (hg : g.Coherent) : ∃ exit ord sets, g.exit = .listed exit ∧
    g.depthFirst true = .ok ord ∧ g.postDominators = .ok sets ∧
    ReflTransGen (g.Round exit ord.order) (g.widest exit) sets ∧ g.Calm exit ord.order sets ∧
    (∀ s, ReflTransGen (g.Round exit ord.order) (g.widest exit) s →
      ReflTransGen (g.Round exit ord.order) s sets) ∧
    sets.size = g.nodes.size ∧ ∀ u, u < g.nodes.size →
      (∀ v, (sets.setAt u).has v = true ↔ v < g.nodes.size ∧ g.PostDominates v u) ∧
      (¬ g.ReachesExit u → ∀ v, (sets.setAt u).has v = true ↔ v < g.nodes.size) := by
  obtain ⟨exit, ord, sets, hexit, hord, hsets, hrun, hcalm⟩ := exists_postDominators_calm hg
  obtain ⟨exit', sets', hexit', hsets', hnarrowing, -⟩ := postDominators_narrowing hg
  obtain ⟨sets'', hsets'', hsize, hexact⟩ := postDominators_eq_ok hg
  cases hsets.symm.trans hsets'
  cases hsets.symm.trans hsets''
  have hhas : ∀ u v, u < g.nodes.size →
      ((sets.setAt u).has v = true ↔ v < g.nodes.size ∧ g.PostDominates v u) := by
    intro u v hu
    constructor
    · intro hv
      have hlt : v < g.nodes.size := hnarrowing.within u v hv
      exact ⟨hlt, (hexact u v hu hlt).mp hv⟩
    · rintro ⟨hlt, hpd⟩
      exact (hexact u v hu hlt).mpr hpd
  refine ⟨exit, ord, sets, hexit, hord, hsets, hrun, hcalm, fun s hs => ?_, hsize, fun u hu => ?_⟩
  · exact reaches_of_unique Round.unique hrun hs hcalm.stuck
  · refine ⟨fun v => hhas u v hu, fun hno v => ?_⟩
    rw [hhas u v hu]
    exact ⟨fun h => h.1, fun hlt => ⟨hlt, .of_not_reachesExit hno⟩⟩

/-- An edge with a test between two nodes of a graph. -/
def testEdge (id source target : Nat) : Edge :=
  ⟨id, .listed source, .listed target, .branch (.truth true)⟩

/-- A loop between the nodes 1 and 2, which can be left for the exit 3, and a way from the
entry into node 4, which cannot be left. -/
def snareGraph : Graph where
  nodes := #[some { id := 0, out := [0, 4] }, some { id := 1, out := [1, 3], into := [0, 2] },
    some { id := 2, out := [2], into := [1] }, some { id := 3, terminal := true, into := [3] },
    some { id := 4, out := [5], into := [4, 5] }]
  edges := #[testEdge 0 0 1, testEdge 1 1 2, testEdge 2 2 1, testEdge 3 1 3, testEdge 4 0 4,
    testEdge 5 4 4]
  vars := []
  exit := .listed 3

/-- The loop stops on a graph with a cycle and a dead end.  Node 1 is on every way from 2 to
the exit, node 2 is not on every way from 1, and the node that cannot be left has all nodes in
its set. -/
theorem postDominators_exact_snare : snareGraph.Coherent ∧ ¬ snareGraph.ReachesExit 4 ∧
    ∃ sets, snareGraph.postDominators = .ok sets ∧ snareGraph.PostDominates 1 2 ∧
      ¬ snareGraph.PostDominates 2 1 ∧ ∀ v, (sets.setAt 4).has v = true ↔ v < 5 := by
  have hg : snareGraph.Coherent := by decide +kernel
  have hstay : ∀ e ∈ snareGraph.edges, e.source = .listed 4 → e.target = .listed 4 := by
    decide +kernel
  have hpaths : ∀ p es q, snareGraph.Path p es q → p = 4 → q = 4 := by
    intro p es q hpath
    induction hpath with
    | nil p => exact id
    | cons hfirst _ ih =>
      rintro rfl
      have ht := hstay _ hfirst.mem hfirst.source
      rw [hfirst.target] at ht
      exact ih (Endpoint.listed.inj ht)
  have hlost : ¬ snareGraph.ReachesExit 4 := by
    rintro ⟨t, es, hexit, hpath⟩
    rw [hpaths 4 es t hpath rfl] at hexit
    cases hexit
  have hbits : snareGraph.postDominators.toOption.map (fun sets =>
      ((sets.setAt 2).has 1, (sets.setAt 1).has 2)) = some (true, false) := by decide +kernel
  obtain ⟨-, -, sets, -, -, hsets, -, -, -, -, hexact⟩ := postDominators_exact hg
  rw [hsets] at hbits
  obtain ⟨hone, htwo⟩ : (sets.setAt 2).has 1 = true ∧ (sets.setAt 1).has 2 = false := by
    simpa [Except.toOption] using hbits
  refine ⟨hg, hlost, sets, hsets, ?_, fun hpd => ?_, (hexact 4 (by decide)).2 hlost⟩
  · exact (((hexact 2 (by decide)).1 1).mp hone).2
  · have hhas := ((hexact 1 (by decide)).1 2).mpr ⟨by decide, hpd⟩
    rw [htwo] at hhas
    cases hhas

end MicroFlow.Graph
