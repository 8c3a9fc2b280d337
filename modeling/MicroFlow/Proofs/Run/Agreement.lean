import MicroFlow.Proofs.Lowering.Built
import MicroFlow.Proofs.Run.Report

/-!
# All solvers agree

Chaotic iteration and the worklists return one table of values for each of the three
analyses, the least solution (`Analysis.SolversAgree`).  Hence the reports of all solvers on
a program say the same about its nodes, and a comparison of solvers finds that they agree.
-/

namespace MicroFlow

variable {M : Type} {b : Built} {k : AnalysisKind} {src : Text.Bytes}

namespace Analysis

/-- A solution by shaped mappings that is below every such solution. -/
structure LeastSolution (a : Analysis M) (g : Graph) (shaped : M → Prop) (V : Values M) : Prop where
  solves : a.Solves g V
  entries : ∀ i m, V.value i = some m → shaped m
  least : ∀ T : Values M, (∀ i m, T.value i = some m → shaped m) → a.Solves g T →
    ∀ i, a.leq (V.value i) (T.value i) = true

/-- Chaotic iteration and the worklists of every strategy return one table, the least solution. -/
def SolversAgree (a : Analysis M) (g : Graph) (shaped : M → Prop) : Prop :=
  ∃ V : Values M, (∃ steps, a.chaotic g none = .ok ⟨V, steps⟩) ∧
    (∀ s, ∃ steps, a.worklist g s none = .ok ⟨V, steps⟩) ∧ a.LeastSolution g shaped V

/-- Every domain is solved alike by all solvers. -/
theorem Domain.solversAgree {a : Analysis M} {g : Graph} (hg : g.Coherent) (D : a.Domain g) :
    a.SolversAgree g D.Shaped := by
  obtain ⟨⟨V, steps⟩, _, hchaotic, hleast, -⟩ := chaotic_least hg D
  refine ⟨V, ⟨steps, hchaotic⟩, fun s => ?_, hleast.solves, hleast.shaped, hleast.below⟩
  obtain ⟨⟨W, steps'⟩, hworklist, hleast', -⟩ := worklist_least hg D s
  have heq : W = V := hleast'.unique hleast
  exact ⟨steps', heq ▸ hworklist⟩

/-- So all solvers report the same, if the mappings can be put in words. -/
theorem Domain.reports_agree {a : Analysis M} (hg : b.graph.Coherent)
    (D : a.Domain b.graph) (hbind : ∀ m, D.Proper m → ∃ bindings, a.bindings m = .ok bindings) :
    ∃ nodes, ∀ s ∈ SolverKind.all, ∃ r, a.report b s = .ok r ∧ r.nodeList = nodes := by
  obtain ⟨solution, r, -, hleast, -, hr⟩ :=
    exists_report hg D hbind (s := .chaotic) (by simp [SolverKind.all])
  refine ⟨r.nodeList, fun s hs => ?_⟩
  obtain ⟨solution', r', -, hleast', hreport, hr'⟩ := exists_report hg D hbind hs
  refine ⟨r', hreport, ?_⟩
  -- the entries are made from the values, which are the same
  have hnodes := Report.nodeList_ofSolution hr
  have hnodes' := Report.nodeList_ofSolution hr'
  rw [hleast'.unique hleast, hnodes] at hnodes'
  exact (Except.ok.inj hnodes').symm

end Analysis

/-- All solvers report the same nodes. -/
theorem solve_nodeList (hg : b.graph.Coherent) (ht : b.graph.WellTyped)
    (hk : k ∈ AnalysisKind.all) :
    ∃ nodes, ∀ s ∈ SolverKind.all, ∃ r, solve false b k s = .ok r ∧ r.nodeList = nodes := by
  cases k with
  | reaching =>
    exact (reachingDefinitionsDomain hg).reports_agree hg fun m hm =>
      Definitions.exists_bindings hg hm.2
  | live => exact (liveVariablesDomain hg).reports_agree hg fun m _ => ⟨_, rfl⟩
  | sign => exact (signDetectionDomain hg ht).reports_agree hg fun m _ => ⟨_, rfl⟩
  | unknown name => simp [AnalysisKind.all] at hk

namespace Comparison

theorem sameNodes_refl (nodes : List Report.Node) : sameNodes nodes nodes = true := by
  induction nodes with
  | nil => rfl
  | cons x xs ih => simp [sameNodes, ih]

theorem agrees_of_nodeList {first r : Report} (h : r.nodeList = first.nodeList) :
    (runOf first r).agrees = true := by
  simp only [runOf, h]
  exact sameNodes_refl _

/-- Reports of the same nodes agree. -/
theorem agree_of_nodeLists {analysis : String} {first : Report} {reports : List Report}
    (h : ∀ r ∈ reports, r.nodeList = first.nodeList) :
    agree { analysis, runs := reports.map (runOf first), report := first } = true ∧
      ∀ entry ∈ reports.flatMap (entriesOf first), entry.level ≠ .warn := by
  constructor
  · simp only [agree, List.all_map, List.all_eq_true]
    intro r hr
    exact agrees_of_nodeList (h r hr)
  · intro entry hentry
    obtain ⟨r, hr, hentry⟩ := List.mem_flatMap.mp hentry
    simp only [entriesOf, agrees_of_nodeList (h r hr), if_true, List.nil_append,
      List.mem_singleton] at hentry
    rw [hentry]
    simp

end Comparison

theorem compiled_eq_ok : compiled src = .ok b ↔ compile src = .ok b := by
  unfold compiled
  cases compile src <;> simp

theorem coherent_of_compile (h : compile src = .ok b) : b.graph.Coherent ∧ b.graph.WellTyped := by
  obtain ⟨p, -, hb⟩ := compile_eq_ok h
  exact ⟨coherent_of_build hb, wellTyped_of_build hb⟩

/-- Only known analyses are run, and not after a cancellation. -/
theorem solve_known {cancelled : Bool} {s : SolverKind} {r : Report}
    (h : solve cancelled b k s = .ok r) : cancelled = false ∧ k ∈ AnalysisKind.all := by
  cases cancelled with
  | true => cases h
  | false =>
    cases k with
    | reaching | live | sign => exact ⟨rfl, by decide⟩
    | unknown name => cases h

/-- A comparison that ends finds agreement. -/
theorem compare_agree {cancelled : Bool} {c : Comparison}
    {log : List LogEntry} (h : compare cancelled src k = .ok (c, log)) :
    c.agree = true ∧ ∀ entry ∈ log, entry.level ≠ .warn := by
  simp only [compare, bind_eq_ok] at h
  obtain ⟨b, hb, first, hfirst, reports, hreports, h⟩ := h
  obtain ⟨hg, ht⟩ := coherent_of_compile (compiled_eq_ok.mp hb)
  obtain ⟨rfl, hk⟩ := solve_known hfirst
  obtain ⟨nodes, hnodes⟩ := solve_nodeList hg ht hk
  have hlist : ∀ {s : SolverKind} {r : Report}, s ∈ SolverKind.all → solve false b k s = .ok r →
      r.nodeList = nodes := by
    intro s r hs hr
    obtain ⟨r', hr', hr''⟩ := hnodes s hs
    rw [hr] at hr'
    cases hr'
    exact hr''
  cases h
  refine Comparison.agree_of_nodeLists fun r hr => ?_
  obtain ⟨s, hs, hsr⟩ := (mem_of_mapM_eq_ok hreports).1 r hr
  rw [hlist hs hsr, hlist (by simp [SolverKind.all]) hfirst]

/-- And it ends. -/
theorem exists_compare (h : compile src = .ok b)
    (hk : k ∈ AnalysisKind.all) : ∃ c log, compare false src k = .ok (c, log) := by
  obtain ⟨hg, ht⟩ := coherent_of_compile h
  obtain ⟨nodes, hnodes⟩ := solve_nodeList hg ht hk
  obtain ⟨first, hfirst, -⟩ := hnodes .chaotic (by simp [SolverKind.all])
  obtain ⟨reports, hreports⟩ : ∃ reports, SolverKind.all.mapM (solve false b k) = .ok reports :=
    exists_mapM_eq_ok fun s hs => by
      obtain ⟨r, hr, -⟩ := hnodes s hs
      exact ⟨r, hr⟩
  simp only [compare, compiled_eq_ok.mpr h, hfirst, hreports, bind, Except.bind]
  exact ⟨_, _, rfl⟩

/--
On a coherent and well-typed graph every solver returns the least solution of each analysis.
The graph of a compiled program is one, so a comparison of the solvers on a program can be
made and never finds one that disagrees.
-/
theorem solvers_return_least_solution :
    (∀ g : Graph, g.Coherent → g.WellTyped →
      (reachingDefinitions g).SolversAgree g (Definitions.Shaped g.vars) ∧
      (liveVariables g).SolversAgree g (fun _ => True) ∧
      (signDetection g).SolversAgree g (Signs.Shaped g.vars)) ∧
    (∀ (src : Text.Bytes) (b : Built), compile src = .ok b →
      b.graph.Coherent ∧ b.graph.WellTyped ∧
      ∀ k ∈ AnalysisKind.all, ∃ c log, compare false src k = .ok (c, log)) ∧
    (∀ (cancelled : Bool) (src : Text.Bytes) (k : AnalysisKind) (c : Comparison)
      (log : List LogEntry), compare cancelled src k = .ok (c, log) →
      c.agree = true ∧ ∀ entry ∈ log, entry.level ≠ .warn) := by
  refine ⟨fun g hg ht => ⟨?_, ?_, ?_⟩, fun src b hb => ⟨?_, ?_, fun k hk => ?_⟩, ?_⟩
  · exact (reachingDefinitionsDomain hg).solversAgree hg
  · exact (liveVariablesDomain hg).solversAgree hg
  · exact (signDetectionDomain hg ht).solversAgree hg
  · exact (coherent_of_compile hb).1
  · exact (coherent_of_compile hb).2
  · exact exists_compare hb hk
  · intro cancelled src k c log h
    exact compare_agree h

/-- A program with a loop, a branch, an array and a record. -/
def tally : Text.Bytes :=
  ("int n; int[4] a; \x7bint fst; int snd\x7d r; read n; " ++
    "while (n > 0) \x7b if (n % 2 == 0) \x7b a[n % 4] := r.fst; \x7d " ++
    "else \x7b r.fst := r.fst + n; r.snd := 7 / r.fst; \x7d n := n - 1; \x7d " ++
    "write a[0];").toUTF8.toList

/-- The solvers agree on the signs in a program, and the comparison says so. -/
theorem solvers_return_least_solution_tally :
    ∃ b, compile tally = .ok b ∧ b.graph.edges.size = 13 ∧
      (signDetection b.graph).SolversAgree b.graph (Signs.Shaped b.graph.vars) ∧
      ∃ c log, compare false tally .sign = .ok (c, log) ∧ c.agree = true := by
  have hsize : (compile tally).toOption.map (·.graph.edges.size) = some 13 := by decide +kernel
  obtain ⟨b, hb, hedges⟩ : ∃ b, compile tally = .ok b ∧ b.graph.edges.size = 13 := by
    cases hc : compile tally with
    | error e => simp [hc, Except.toOption] at hsize
    | ok b => exact ⟨b, rfl, by simpa [hc, Except.toOption] using hsize⟩
  obtain ⟨hgraph, hprogram, hcompare⟩ := solvers_return_least_solution
  obtain ⟨hg, ht, hmade⟩ := hprogram tally b hb
  obtain ⟨c, log, hc⟩ := hmade .sign (by decide)
  exact ⟨b, hb, hedges, (hgraph b.graph hg ht).2.2, c, log, hc, (hcompare _ _ _ _ _ hc).1⟩

end MicroFlow
