import MicroFlow.Proofs.Lowering.Shape
import MicroFlow.Proofs.Run.Agreement
import MicroFlow.Proofs.Semantics.Run

/-!
# Dead variables cannot matter

Two runs start at the same node with the same input, in stores that differ only in variables
that are dead there.  They cannot be told apart: they take the same edges, write the same values
and stop at the same step.

The argument is a simulation in lock step.  `Alike` is the invariant: the runs are at the same
node, agree on input and output, and on every variable that is live at the node.

Nothing is said about a node without a value, at which no variable would be live.  In the graph
of a program there is no such node, because every node reaches the exit.
-/

namespace MicroFlow

variable {V : Type} {A : Arithmetic V} {g : Graph}

/-- Two stores hold the same in every variable of the set. -/
def LiveSet.Agree (vars : Variables) (m : LiveSet) (s t : Store V) : Prop :=
  ∀ (a : Access) (i : Nat), vars.of a = some i → m.has i = true → s.AgreeOn a.var t

variable {m : LiveSet}

/-- Stores agree if they do on the variables that are reported live. -/
theorem LiveSet.agree_of_isLive {vars : Variables} {s t : Store V}
    (h : ∀ d ∈ vars, m.isLive vars d.name = true → s.AgreeOn (d.name, d.kind) t) :
    m.Agree vars s t := by
  intro a i hi hlive
  obtain ⟨d, hd, hname, hkind, hindex⟩ := Variables.of_eq_some hi
  have hvar : (d.name, d.kind) = a.var := by rw [hname, hkind]; rfl
  rw [← hvar]
  refine h d (List.mem_of_getElem? hd) ?_
  rw [LiveSet.isLive, hname, hindex]
  exact hlive

/-! ## Closure of the solution -/

section Solution

variable (hg : g.Coherent) {W : Values LiveSet} (hW : (liveVariablesDomain hg).Least W)

include hg hW

/-- Before an edge all is live that its action uses, and all that is live behind it and not
overwritten. -/
theorem live_before {e : Edge} {p q : Nat} (he : g.Leads e p q) (hm : W.value q = some m) :
    ∃ n, W.value p = some n ∧ ∀ i, (m.has i = true ∧ ¬ e.action.Overwrites g.vars i) ∨
      e.action.Uses g.vars i → n.has i = true := by
  -- the analysis runs against the edge, from its target to its source
  obtain ⟨v, hv, hle⟩ := hW.solves.edge e he.mem q p he.target he.source
  rw [hm] at hv
  obtain ⟨x, rfl, hx⟩ := Analysis.Domain.apply_some hv
  obtain ⟨n, hn, hxn⟩ := Analysis.leq_some_iff.mp hle
  refine ⟨n, hn, ?_⟩
  intro i hi
  have hxi : x.has i = true := (LiveSet.has_transfer (hg.declared he.mem) hx i).mpr hi
  exact BitSet.subset_iff.mp hxn i hxi

/-- Where the exit can be reached there is a value. -/
theorem exists_live_of_reachesExit {p : Nat} (hp : g.ReachesExit p) : ∃ m, W.value p = some m := by
  obtain ⟨t, es, hexit, hpath⟩ := hp
  induction hpath with
  | nil t =>
    obtain ⟨i, n, -, hstart, -, hid, -, hlast⟩ := hg.start true
    have hit : i = t := by
      have := hlast rfl
      rw [hexit] at this
      exact (Endpoint.listed.inj this).symm
    have hle := hW.solves.start n hstart
    rw [hid, hit] at hle
    obtain ⟨m, hm, -⟩ := Analysis.leq_some_iff.mp hle
    exact ⟨m, hm⟩
  | @cons e es p q t hfirst _ ih =>
    obtain ⟨m, hm⟩ := ih hexit
    obtain ⟨n, hn, -⟩ := live_before hg hW hfirst hm
    exact ⟨n, hn⟩

end Solution

/-! ## Two runs in lock step -/

/-- Two configurations at a node agree on input, output and all that is live at the node. -/
structure Alike (g : Graph) (W : Values LiveSet) (p : Nat) (c c' : Config V) : Prop where
  input : c.input = c'.input
  output : c.output = c'.output
  live : ∃ m, W.value p = some m ∧ m.Agree g.vars c.store c'.store

namespace Alike

variable {W : Values LiveSet} {p : Nat} {c c' : Config V}

theorem symm (h : Alike g W p c c') : Alike g W p c' c := by
  obtain ⟨m, hm, hagree⟩ := h.live
  refine ⟨h.input.symm, h.output.symm, m, hm, ?_⟩
  intro a i hi hlive l hl
  exact (hagree a i hi hlive l hl).symm

section

variable (hg : g.Coherent) (hW : (liveVariablesDomain hg).Least W)
  (hreach : ∀ p, p < g.nodes.size → g.ReachesExit p)

include hg hW hreach

/-- An action that one run performs is performed by the other, and what is live behind it agrees
again. -/
theorem step (h : Alike g W p c c') {e : Edge} {q : Nat} {d : Config V} (he : g.Leads e p q)
    (hd : e.action.step? A g.vars c = some d) :
    ∃ d', e.action.step? A g.vars c' = some d' ∧ Alike g W q d d' := by
  obtain ⟨m, hm⟩ := exists_live_of_reachesExit hg hW (hreach q (he.lt hg).2)
  obtain ⟨n, hn, hbefore⟩ := live_before hg hW he hm
  obtain ⟨n', hn', hagree⟩ := h.live
  rw [hn] at hn'
  cases hn'
  -- what the action uses is live before it
  have hUses : ∀ u ∈ e.action.uses, c.store.AgreeOn u.var c'.store := by
    intro u hu
    obtain ⟨i, hi⟩ := (hg.declared he.mem).use hu
    exact hagree u i hi (hbefore i (Or.inr ⟨u, hu, hi⟩))
  obtain ⟨d', hd', hin, hout, hafter⟩ := Action.step?_congr hUses h.input h.output hd
  refine ⟨d', hd', hin, hout, m, hm, ?_⟩
  intro a i hi hlive
  refine hafter a.var ?_
  by_cases hover : e.action.Overwrites g.vars i
  · exact Or.inr (hover.replaces hi)
  · exact Or.inl (hagree a i hi (hbefore i (Or.inl ⟨hlive, hover⟩)))

/-- Whole runs, by induction on their edges. -/
theorem follows (h : Alike g W p c c') {is : List Nat} {r : Nat} {d : Config V}
    (hrun : g.Follows A (p, c) is (r, d)) :
    ∃ d', g.Follows A (p, c') is (r, d') ∧ Alike g W r d d' := by
  induction is generalizing p c c' with
  | nil =>
    cases hrun
    exact ⟨c', .stop _, h⟩
  | cons i is ih =>
    cases hrun with
    | @step e _ _ q _ d₁ _ _ edge source target performed rest =>
      have he : g.Leads e p q := ⟨Array.mem_of_getElem? edge, source, target⟩
      obtain ⟨d₁', hstep, halike⟩ := h.step hg hW hreach he performed
      obtain ⟨d', hfollows, hend⟩ := ih halike rest
      exact ⟨d', .step edge source target hstep hfollows, hend⟩

/-- Both runs stop at once. -/
theorem stops (h : Alike g W p c c') (hstop : g.Stops A (p, c)) : g.Stops A (p, c') := by
  intro y hy
  cases hy with
  | @along e _ q _ d mem source target performed =>
    obtain ⟨d', hd', -⟩ := h.symm.step hg hW hreach ⟨mem, source, target⟩ performed
    exact hstop (q, d') (.along mem source target hd')

end

end Alike

/-- The two runs of `n` steps from a node, in two stores and with the same input, are the same:
both exist or neither does, and they take the same edges, leave the same input, write the same
values and are over together. -/
structure SameRun (A : Arithmetic V) (g : Graph) (q : Nat) (s t : Store V) (input : List Int)
    (n : Nat) : Prop where
  exist : (∃ is x, is.length = n ∧ g.Follows A (q, ⟨s, input, []⟩) is x) ↔
    ∃ is x, is.length = n ∧ g.Follows A (q, ⟨t, input, []⟩) is x
  same : ∀ (is js : List Nat) (x y : Nat × Config V), is.length = n → js.length = n →
    g.Follows A (q, ⟨s, input, []⟩) is x → g.Follows A (q, ⟨t, input, []⟩) js y →
    is = js ∧ x.1 = y.1 ∧ x.2.input = y.2.input ∧ x.2.output = y.2.output ∧
      (g.Stops A x ↔ g.Stops A y)

/-- Stores that agree on what is live cannot be told apart. -/
theorem sameRun_of_agree (hg : g.Coherent) (hb : g.Branching) {W : Values LiveSet}
    (hW : (liveVariablesDomain hg).Least W) (hreach : ∀ p, p < g.nodes.size → g.ReachesExit p)
    {q : Nat} (hm : W.value q = some m) {s t : Store V}
    (hagree : m.Agree g.vars s t) (input : List Int) (n : Nat) : SameRun A g q s t input n := by
  have halike : Alike g W q (⟨s, input, []⟩ : Config V) ⟨t, input, []⟩ := ⟨rfl, rfl, m, hm, hagree⟩
  refine ⟨⟨?_, ?_⟩, ?_⟩
  · rintro ⟨is, ⟨r, d⟩, hlen, hrun⟩
    obtain ⟨d', hrun', -⟩ := halike.follows hg hW hreach hrun
    exact ⟨is, (r, d'), hlen, hrun'⟩
  · rintro ⟨is, ⟨r, d⟩, hlen, hrun⟩
    obtain ⟨d', hrun', -⟩ := halike.symm.follows hg hW hreach hrun
    exact ⟨is, (r, d'), hlen, hrun'⟩
  · rintro is js ⟨r, d⟩ y hi hj hrun hrun'
    obtain ⟨d', hfollows, hend⟩ := halike.follows hg hW hreach hrun
    -- the second store has one run of this length only
    obtain ⟨rfl, rfl⟩ := hfollows.unique hb hrun' (hi.trans hj.symm)
    exact ⟨rfl, rfl, hend.input, hend.output, hend.stops hg hW hreach, hend.symm.stops hg hW hreach⟩

/--
Dead variables cannot matter.  Whatever solver finds the live variables of a program, the result
has a set of live variables for every node, and the report shows it; and from two stores that hold
the same in all of these, arrays and records as a whole, the runs of any length with the same
input are the same.
-/
theorem dead_variables_cannot_matter {src : Text.Bytes} {b : Built} (h : compile src = .ok b)
    {k : SolverKind} (hk : k ∈ SolverKind.all) :
    ∃ solution report, (liveVariables b.graph).solve b.graph k = .ok solution ∧
      analyze src .live k = .ok report ∧
      ∀ q, q < b.graph.nodes.size → ∃ node live, report.node? q = some node ∧ node.defined = true ∧
        node.bindings = live.bindings b.graph.vars ∧ solution.values.value q = some live ∧
        ∀ s t : Store Int,
          (∀ d ∈ b.graph.vars, live.isLive b.graph.vars d.name = true →
            s.AgreeOn (d.name, d.kind) t) →
          ∀ (input : List Int) (n : Nat), SameRun .halting b.graph q s t input n := by
  obtain ⟨p, -, hp⟩ := compile_eq_ok h
  have hg : b.graph.Coherent := coherent_of_build hp
  have hb : b.graph.Branching := branching_of_build hp
  have hreach : ∀ q, q < b.graph.nodes.size → b.graph.ReachesExit q := fun q hq =>
    (between_of_build hp hq).2
  obtain ⟨solution, report, hsolve, hleast, hreport, hmade⟩ :=
    Analysis.exists_report hg (liveVariablesDomain hg) (fun m _ => ⟨_, rfl⟩) hk
  refine ⟨solution, report, hsolve, ?_, fun q hq => ?_⟩
  · rw [analyze, compiled_eq_ok.mpr h]
    exact hreport
  · obtain ⟨live, hlive⟩ := exists_live_of_reachesExit hg hleast (hreach q hq)
    obtain ⟨node, hnode, hdefined, hbindings⟩ :=
      Report.node?_of_value hg hmade hleast.solves.size hq hlive rfl rfl
    refine ⟨node, live, hnode, hdefined, hbindings, hlive, fun s t hagree input n => ?_⟩
    exact sameRun_of_agree hg hb hleast hreach hlive (LiveSet.agree_of_isLive hagree) input n

/-- Sets `x` and `y` before it uses them, and uses `a` as it finds it. -/
def refill : Text.Bytes :=
  ("int x; int y; int[2] a; read x; y := 3; " ++
    "while (x > 0) \x7b write y + a[0]; x := x - 1; \x7d").toUTF8.toList

/-- The edges of `refill` behind the declarations. -/
def refillEdges : List Edge :=
  [⟨3, .listed 3, .listed 4, .read (.scalar "x")⟩,
    ⟨4, .listed 4, .listed 5, .assign (.scalar "y") (.literal 3)⟩,
    ⟨5, .listed 5, .listed 6, .branch (.node (.rel .gt) (.scalar "x") (.literal 0))⟩,
    ⟨6, .listed 6, .listed 7, .write (.node (.arith .add) (.scalar "y")
      (.element "a" (.literal 0) none))⟩,
    ⟨7, .listed 7, .listed 5, .assign (.scalar "x")
      (.node (.arith .sub) (.scalar "x") (.literal 1))⟩,
    ⟨8, .listed 5, .listed 8, .branch (.negation (.node (.rel .gt) (.scalar "x") (.literal 0)))⟩]

/-- A store with 5 in every element of `a`, and another value everywhere else. -/
def refillStore (v : Int) : Store Int := fun l => if l.var = ("a", .array) then 5 else v

/-- Behind its declarations `refill` runs alike in stores that differ in `x` and `y`. -/
theorem dead_variables_cannot_matter_refill :
    ∃ b solution live, compile refill = .ok b ∧
      (liveVariables b.graph).solve b.graph (.worklist .fifo) = .ok solution ∧
      solution.values.value 3 = some live ∧
      b.graph.vars.map (fun d => (d.name, live.isLive b.graph.vars d.name)) =
        [("x", false), ("y", false), ("a", true)] ∧
      refillStore 0 (.scalar "x") ≠ refillStore 7 (.scalar "x") ∧
      (∀ input n, SameRun .halting b.graph 3 (refillStore 0) (refillStore 7) input n) ∧
      ∃ is x, is.length = 6 ∧
        b.graph.Follows .halting (3, ⟨refillStore 0, [1, 9], []⟩) is x ∧ x.2.output = [8] := by
  have hcheck : (compile refill).toOption.map (fun b =>
      (b.graph.nodes.size, b.graph.vars, b.graph.edges.toList.drop 3)) =
      some (9, [⟨"x", .scalar, 0⟩, ⟨"y", .scalar, 0⟩, ⟨"a", .array, 2⟩], refillEdges) := by
    decide +kernel
  have hmarks : (compile refill).toOption.map (fun b =>
      ((liveVariables b.graph).solve b.graph (.worklist .fifo)).toOption.map fun solution =>
        (solution.values.value 3).map fun live =>
          b.graph.vars.map fun d => (d.name, live.isLive b.graph.vars d.name)) =
      some (some (some [("x", false), ("y", false), ("a", true)])) := by
    decide +kernel
  cases hb : compile refill with
  | error e => simp [hb, Except.toOption] at hcheck
  | ok b =>
    simp only [hb, Except.toOption, Option.map_some, Option.some.injEq, Prod.mk.injEq]
      at hcheck hmarks
    obtain ⟨hsize, hvars, hedges⟩ := hcheck
    obtain ⟨solution, report, hsolve, -, hsame⟩ :=
      dead_variables_cannot_matter hb (k := .worklist .fifo) (by simp [SolverKind.all])
    obtain ⟨node, live, -, -, -, hlive, hruns⟩ := hsame 3 (by omega)
    simp only [hsolve, Option.map_some, Option.some.injEq, hlive] at hmarks
    have hat : ∀ (j : Nat) (e : Edge), refillEdges[j]? = some e →
      b.graph.edges[3 + j]? = some e := by
      intro j e hj
      rw [← hedges, List.getElem?_drop] at hj
      simpa using hj
    refine ⟨b, solution, live, rfl, hsolve, hlive, hmarks, by decide, ?_, ?_⟩
    · refine hruns _ _ fun d hd hmarked l hl => ?_
      -- of the declared variables only the array is marked
      have hmem : (d.name, true) ∈ [("x", false), ("y", false), ("a", true)] := by
        rw [← hmarks, List.mem_map]
        exact ⟨d, hd, by rw [hmarked]⟩
      have hname : d.name = "a" := by simpa using hmem
      have hkind : d.kind = .array := by
        rw [hvars] at hd
        simp only [List.mem_cons, List.not_mem_nil, or_false] at hd
        rcases hd with rfl | rfl | rfl
        · simp at hname
        · simp at hname
        · rfl
      rw [hname, hkind] at hl
      simp [refillStore, hl]
    · -- the run reads 1, so that it goes through the loop once
      exact ⟨_, _, rfl,
        .step (hat 0 _ rfl) rfl rfl (by rw [hvars]; rfl) <|
        .step (hat 1 _ rfl) rfl rfl (by rw [hvars]; rfl) <|
        .step (hat 2 _ rfl) rfl rfl (by rw [hvars]; rfl) <|
        .step (hat 3 _ rfl) rfl rfl (by rw [hvars]; rfl) <|
        .step (hat 4 _ rfl) rfl rfl (by rw [hvars]; rfl) <|
        .step (hat 5 _ rfl) rfl rfl (by rw [hvars]; rfl) <| .stop _, by rfl⟩

end MicroFlow
