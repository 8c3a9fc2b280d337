import MicroFlow.Proofs.Flow.Fixpoint
import MicroFlow.Proofs.Flow.LiveVariables
import MicroFlow.Proofs.Flow.ReachingDefinitions
import MicroFlow.Proofs.Flow.SignDetection
import MicroFlow.Run.Solve

/-!
# Every solver has a report to give

On a coherent graph a report can be made from every table of mappings that can be put into
words (`Report.exists_ofSolution`), and the mappings that solvers find can be.  So every
solver on offer has a report, about the least solution (`Analysis.exists_report`).

What a report says about the nodes depends on the table of values alone, not on the solver
(`Report.nodeList_ofSolution`).
-/

namespace MicroFlow

namespace Graph.Coherent

variable {g : Graph} (h : g.Coherent)

include h

/-- Every edge leads back or on. -/
theorem exists_leadsBack (ord : NodeOrder) {e : Edge} (he : e ∈ g.edges) :
    ∃ b, g.leadsBack ord e = .ok b := by
  obtain ⟨p, q, hp, hq, hs, ht⟩ := h.ends_listed he
  simp only [leadsBack, h.ends he hs ht, bind, Except.bind, slotOf_natCast hp, slotOf_natCast hq]
  split
  · exact ⟨_, rfl⟩
  · exact ⟨_, rfl⟩

/-- Statistics can be taken of every coherent graph. -/
theorem exists_stats : ∃ stats, g.stats = .ok stats := by
  obtain ⟨steps, hsteps⟩ : ∃ steps, (List.range g.nodes.size).mapM g.successors = .ok steps :=
    exists_mapM_eq_ok fun p hp =>
      (h.successors_eq_ok (List.mem_range.mp hp)).imp fun _ hnext => hnext.1
  obtain ⟨ord, hord, -⟩ := h.depthFirst_eq_ok false
  obtain ⟨back, hback⟩ : ∃ back, g.edges.toList.mapM (g.leadsBack ord) = .ok back :=
    exists_mapM_eq_ok fun e he => h.exists_leadsBack ord (by simpa using he)
  simp only [stats, hsteps, hord, hback, bind, Except.bind]
  exact ⟨_, rfl⟩

theorem exists_edgeEntry {e : Edge} (he : e ∈ g.edges) :
    ∃ entry, Report.Edge.ofEdge g e = .ok entry := by
  obtain ⟨p, q, hp, hq, hs, ht⟩ := h.ends_listed he
  obtain ⟨text, htext⟩ := Action.exists_text (h.valid.action e he)
  simp only [Report.Edge.ofEdge, h.ends he hs ht, bind, Except.bind, htext]
  exact ⟨_, rfl⟩

end Graph.Coherent

namespace Report

variable {M : Type} {a : Analysis M} {g : Graph} {solver : String} {s : Solution M}
  {findings : List Finding} {r : Report}

/-- The nodes of a report are the values in words. -/
theorem nodeList_ofSolution (h : ofSolution a g solver s findings = .ok r) :
    s.values.toList.zipIdx.mapM (fun (v, i) => Node.ofValue a g i v) = .ok r.nodeList := by
  simp only [ofSolution, bind_eq_ok] at h
  obtain ⟨stats, -, edges, -, nodes, hnodes, h⟩ := h
  cases h
  have hlist : nodeList { nodes := present nodes } = nodes := by
    cases nodes <;> rfl
  rw [hnodes]
  exact congrArg Except.ok hlist.symm

/-- A report has a node for every value. -/
theorem node?_ofSolution
    (h : ofSolution a g solver s findings = .ok r) {i : Nat} (hi : i < s.values.size) :
    ∃ n, r.node? i = some n ∧ Node.ofValue a g i (s.values.value i) = .ok n := by
  have hmap := mapM_eq_ok.mp (nodeList_ofSolution h)
  have hlen := hmap.length_eq
  simp only [List.length_zipIdx, Array.length_toList] at hlen
  have hi' : i < r.nodeList.length := by omega
  refine ⟨r.nodeList[i], ?_, ?_⟩
  · simp [node?, hi']
  · have hget := hmap.get (i := i) (by simpa using hi) hi'
    simpa [Values.value, hi] using hget

/-- The entry of a node whose value is a mapping of a state that can occur. -/
theorem node?_of_value (hg : g.Coherent) (h : ofSolution a g solver s findings = .ok r)
    (hsize : s.values.size = g.nodes.size) {q : Nat} (hq : q < g.nodes.size) {m : M}
    (hm : s.values.value q = some m) (hreach : a.reachable m = true) {bindings : List Binding}
    (hb : a.bindings m = .ok bindings) :
    ∃ node, r.node? q = some node ∧ node.defined = true ∧ node.bindings = bindings := by
  obtain ⟨node, hnode, hvalue⟩ := node?_ofSolution h (hsize ▸ hq)
  obtain ⟨n, hn, -, -⟩ := hg.nodeAt hq
  refine ⟨node, hnode, ?_⟩
  rw [hm, Node.ofValue, hn] at hvalue
  simp only [bind, Except.bind, hreach, if_true, hb] at hvalue
  cases hvalue
  exact ⟨rfl, rfl⟩

/-- A report can be made when every mapping can be put into words. -/
theorem exists_ofSolution (hg : g.Coherent) (solver : String)
    (findings : List Finding) (hsize : s.values.size = g.nodes.size)
    (hbind : ∀ i m, s.values.value i = some m → ∃ bindings, a.bindings m = .ok bindings) :
    ∃ r, ofSolution a g solver s findings = .ok r := by
  obtain ⟨stats, hstats⟩ := hg.exists_stats
  obtain ⟨edges, hedges⟩ : ∃ edges, g.edges.toList.mapM (Edge.ofEdge g) = .ok edges :=
    exists_mapM_eq_ok fun e he => hg.exists_edgeEntry (by simpa using he)
  have hnode : ∀ x ∈ s.values.toList.zipIdx, ∃ n, Node.ofValue a g x.2 x.1 = .ok n := by
    rintro ⟨v, i⟩ hx
    have hget : s.values.toList[i]? = some v := by simpa using List.mem_zipIdx_iff_getElem?.mp hx
    have hi : i < g.nodes.size := by
      have := (List.getElem?_eq_some_iff.mp hget).1
      simp only [Array.length_toList] at this
      omega
    obtain ⟨n, hn, -, -⟩ := hg.nodeAt hi
    unfold Node.ofValue
    rw [hn]
    cases v with
    | none => exact ⟨_, rfl⟩
    | some m =>
      obtain ⟨bindings, hb⟩ := hbind i m (by simpa [Values.value] using congrArg Option.join hget)
      simp only [bind, Except.bind, hb]
      split
      · exact ⟨_, rfl⟩
      · exact ⟨_, rfl⟩
  obtain ⟨nodes, hnodes⟩ := exists_mapM_eq_ok hnode
  simp only [ofSolution, hstats, hedges, hnodes, bind, Except.bind]
  exact ⟨_, rfl⟩

end Report

/-! ## Mappings in words -/

/-- Definitions that are in range can be put in words. -/
theorem Definitions.exists_bindings {g : Graph} (hg : g.Coherent) {m : Definitions}
    (h : ∀ i, (m.setAt i).Within (g.edges.size + 1)) : ∃ bindings, m.bindings g = .ok bindings := by
  refine exists_mapM_eq_ok fun x _ => ?_
  have hsite : ∀ s ∈ (m.setAt x.2).members, ∃ text, siteText g s = .ok text := by
    intro s hs
    have hlt : s < g.edges.size + 1 := h x.2 s (BitSet.mem_toList.mp hs).2
    unfold siteText
    split
    · exact ⟨_, rfl⟩
    · rename_i hne
      have hpos : s ≠ 0 := hne
      obtain ⟨e, he⟩ : ∃ e, g.edges[s - 1]? = some e := by
        have hlt' : s - 1 < g.edges.size := by omega
        exact ⟨g.edges[s - 1], by simp [hlt']⟩
      have hat : g.edgeAt (s - 1) = .ok e := Graph.edgeAt_eq_ok.mpr he
      have hmem := Array.mem_of_getElem? he
      obtain ⟨p, q, -, -, hsrc, htgt⟩ := hg.ends_listed hmem
      simp only [hat, bind, Except.bind, hg.ends hmem hsrc htgt]
      exact ⟨_, rfl⟩
  obtain ⟨texts, htexts⟩ := exists_mapM_eq_ok hsite
  obtain ⟨d, i⟩ := x
  refine ⟨⟨d.name, "\x7b" ++ ", ".intercalate texts ++ "\x7d"⟩, ?_⟩
  simp only [setText, htexts, bind, Except.bind]
  rfl

/-! ## Solvers and reports -/

namespace Analysis

variable {M : Type} {a : Analysis M}

/-- Every solver ends in the least solution. -/
theorem exists_solve {g : Graph} (hg : g.Coherent) (D : a.Domain g) {s : SolverKind}
    (hs : s ∈ SolverKind.all) : ∃ solution, a.solve g s = .ok solution ∧
    D.Least solution.values := by
  cases s with
  | chaotic =>
    obtain ⟨solution, _, hsol, hleast, -⟩ := Domain.chaotic_least hg D
    exact ⟨solution, by simp only [solve, hsol], hleast⟩
  | worklist strategy =>
    obtain ⟨solution, hsol, hleast, -⟩ := Domain.worklist_least hg D strategy
    exact ⟨solution, by simp only [solve, hsol], hleast⟩
  | unknown name => simp [SolverKind.all] at hs

/-- Every solver on offer has a report, about the least solution. -/
theorem exists_report {b : Built} (hg : b.graph.Coherent) (D : a.Domain b.graph)
    (hbind : ∀ m, D.Proper m → ∃ bindings, a.bindings m = .ok bindings) {s : SolverKind}
    (hs : s ∈ SolverKind.all) :
    ∃ solution r, a.solve b.graph s = .ok solution ∧ D.Least solution.values ∧
      a.report b s = .ok r ∧ Report.ofSolution a b.graph s.label solution b.findings = .ok r := by
  obtain ⟨solution, hsol, hleast⟩ := exists_solve hg D hs
  obtain ⟨r, hr⟩ := Report.exists_ofSolution hg s.label b.findings hleast.solves.size
    fun i m hm => hbind m (hleast.proper i m hm)
  refine ⟨solution, r, hsol, hleast, ?_, hr⟩
  rw [report, hsol]
  simp only [bind, Except.bind, hr]
  rfl

end Analysis

end MicroFlow
