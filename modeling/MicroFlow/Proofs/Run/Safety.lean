import MicroFlow.Proofs.Dependence.Range
import MicroFlow.Proofs.Dependence.Rounds
import MicroFlow.Proofs.Flow.Reached
import MicroFlow.Proofs.Flow.Termination
import MicroFlow.Proofs.Lowering.Accepted
import MicroFlow.Proofs.Lowering.Shape
import MicroFlow.Proofs.Run.Agreement
import MicroFlow.Proofs.Source.Parse
import MicroFlow.Proofs.Source.Written

/-!
# Nothing breaks off on a compiled program

A text either compiles or is refused with a message (`message_of_refused`).  On the graph of a text
that compiles, nothing that the library offers breaks off: solving with every analysis and every
solver, dependence graphs and their slices, depth-first orders, figures and drawings (`Graph.Safe`),
and the loops of the solvers and of the search for post-dominators end.  On the way every reference
leads somewhere, which is more than that there is a result, because some operations make do with
what is there; so the accesses are shown to be in range themselves, for every value that comes up in
a solver.

The facts that rule out each fault are established elsewhere: the check of the program declares
variables and types expressions, the layout of arrows numbers the nodes and leaves no edge from a
node to itself.
-/

namespace MicroFlow

open Source Grammar
open Relation (ReflTransGen)

/-! ## Refusals -/

/-- The refusal of a program comes with a message. -/
def BuildError.Speaks (e : BuildError) : Prop := ∃ text, e.message? = some text

namespace Source

variable {vars : Variables} {e : BuildError}

/-- If an expression is refused, the refusal has a text. -/
theorem Arith.speaks {a : Arith} (h : a.check vars = .error e) : e.Speaks := by
  induction a with
  | missing =>
    cases h
    exact ⟨_, rfl⟩
  | num => cases h
  | access pos shape name index field ih =>
    -- whatever the shape, the variable is looked up last
    have hlast : ∀ {x : Access}, (if (vars.of x).isNone then
        (.error (.undeclared pos x.name x.kind) : Except BuildError Unit) else .ok ()) = .error e →
        e.Speaks := by
      intro x hx
      split at hx
      · cases hx
        exact ⟨_, rfl⟩
      · cases hx
    unfold Arith.check at h
    cases shape with
    | scalar => exact hlast h
    | array =>
      rcases bind_eq_error.mp h with h | ⟨_, -, h⟩
      · exact ih h
      · exact hlast h
    | record =>
      cases hsel : (Selector.ofName? field).isNone with
      | true =>
        simp only [hsel] at h
        cases h
        exact ⟨_, rfl⟩
      | false =>
        simp only [hsel] at h
        exact hlast h
    | unknown kind =>
      cases h
      exact ⟨_, rfl⟩
  | binary pos op l r ihl ihr =>
    rw [Arith.check] at h
    cases hop : op.isArithmetic with
    | false =>
      simp only [hop] at h
      cases h
      exact ⟨_, rfl⟩
    | true =>
      simp only [hop] at h
      rcases bind_eq_error.mp h with h | ⟨_, -, h⟩
      · exact ihl h
      · exact ihr h

/-- So has that of a condition. -/
theorem Cond.speaks {c : Cond} (h : c.check vars = .error e) : e.Speaks := by
  induction c with
  | missing =>
    cases h
    exact ⟨_, rfl⟩
  | truth => cases h
  | rel pos op l r =>
    rw [Cond.check] at h
    cases hop : op.isRelational with
    | false =>
      simp only [hop] at h
      cases h
      exact ⟨_, rfl⟩
    | true =>
      simp only [hop] at h
      rcases bind_eq_error.mp h with h | ⟨_, -, h⟩
      · exact Arith.speaks h
      · exact Arith.speaks h
  | logic pos op l r ihl ihr =>
    rw [Cond.check] at h
    cases hop : (op != .and && op != .or) with
    | true =>
      simp only [hop] at h
      cases h
      exact ⟨_, rfl⟩
    | false =>
      simp only [hop] at h
      rcases bind_eq_error.mp h with h | ⟨_, -, h⟩
      · exact ihl h
      · exact ihr h
  | not pos x ih => exact ih h

/-- What is written has its target, so that its refusal comes with a message. -/
theorem Part.speaks {ok : Located → Prop} {q : Part} (hq : q.Spelled ok)
    (h : q.check vars = .error e) : e.Speaks := by
  cases hq with
  | assign =>
    rcases bind_eq_error.mp h with h | ⟨_, -, h⟩
    · exact Arith.speaks h
    · exact Arith.speaks h
  | read => exact Arith.speaks h
  | write => exact Arith.speaks h
  | guard => exact Cond.speaks h

mutual

/-- And that of a statement, along its parts. -/
theorem Stmt.speaks : ∀ {s : Stmt}, (∀ q ∈ s.parts, q.Spelled fun _ => True) →
    s.check vars = .error e → e.Speaks
  | .missing, _, h => by
    cases h
    exact ⟨_, rfl⟩
  | .assign _ _ _, hs, h
  | .read _ _, hs, h
  | .write _ _, hs, h => Part.speaks (hs _ (List.mem_singleton_self _)) h
  | .ifThen _ cond body, hs, h | .loop _ cond body, hs, h => by
    rw [Stmt.check] at h
    rcases bind_eq_error.mp h with h | ⟨_, -, h⟩
    · exact Cond.speaks h
    · exact Block.speaks (fun q hq => hs q (by simp [Stmt.parts, hq])) h
  | .ifElse _ cond body other, hs, h => by
    rw [Stmt.check] at h
    rcases bind_eq_error.mp h with h | ⟨_, -, h⟩
    · exact Cond.speaks h
    · rcases bind_eq_error.mp h with h | ⟨_, -, h⟩
      · exact Block.speaks (fun q hq => hs q (by simp [Stmt.parts, hq])) h
      · exact Block.speaks (fun q hq => hs q (by simp [Stmt.parts, hq])) h

theorem Block.speaks : ∀ {pos : Pos} {b : Block}, (∀ q ∈ b.parts, q.Spelled fun _ => True) →
    checkBody vars pos b = .error e → e.Speaks
  | _, .nil, _, h => by
    cases h
    exact ⟨_, rfl⟩
  | _, .cons s b, hs, h => by
    rw [checkBody] at h
    rcases bind_eq_error.mp h with h | ⟨_, -, h⟩
    · exact Stmt.speaks (fun q hq => hs q (by simp [Block.parts, hq])) h
    · exact Block.rest_speaks (fun q hq => hs q (by simp [Block.parts, hq])) h

theorem Block.rest_speaks : ∀ {b : Block}, (∀ q ∈ b.parts, q.Spelled fun _ => True) →
    Block.check vars b = .error e → e.Speaks
  | .nil, _, h => by cases h
  | .cons s b, hs, h => by
    rw [Block.check] at h
    rcases bind_eq_error.mp h with h | ⟨_, -, h⟩
    · exact Stmt.speaks (fun q hq => hs q (by simp [Block.parts, hq])) h
    · exact Block.rest_speaks (fun q hq => hs q (by simp [Block.parts, hq])) h

end

/-- And that of an item. -/
theorem Item.speaks {i : Item}
    (hi : ∀ s, i = .stmt s → ∀ q ∈ s.parts, q.Spelled fun _ => True)
    (h : i.check vars = .error e) : e.Speaks := by
  cases i with
  | declare pos shape name length =>
    -- whatever the shape, the name is looked up last
    have hlast : ∀ {d : Declaration}, (do
        if vars.any (·.name == name) then .error (.duplicate pos name)
        return vars ++ [d] : Except BuildError Variables) = .error e → e.Speaks := by
      intro d hd
      split at hd
      · cases hd
        exact ⟨_, rfl⟩
      · cases hd
    unfold Item.check at h
    cases shape with
    | scalar => exact hlast h
    | record => exact hlast h
    | array =>
      simp only at h
      split at h
      · cases h
        exact ⟨_, rfl⟩
      · exact hlast h
    | unknown kind =>
      cases h
      exact ⟨_, rfl⟩
  | stmt s =>
    cases s with
    | missing =>
      cases h
      exact ⟨_, rfl⟩
    | assign | read | write | ifThen | ifElse | loop =>
      rw [Item.check] at h
      · rcases bind_eq_error.mp h with h | ⟨_, -, h⟩
        · exact Stmt.speaks (hi _ rfl) h
        · cases h
      · simp
  | expression form | missing =>
    cases h
    exact ⟨_, rfl⟩

/-- And that of a program. -/
theorem checkProgram_speaks {p : Program}
    (hp : ∀ s, Item.stmt s ∈ p → ∀ q ∈ s.parts, q.Spelled fun _ => True)
    (h : checkProgram vars p = .error e) : e.Speaks := by
  induction p generalizing vars with
  | nil => cases h
  | cons i rest ih =>
    rw [checkProgram] at h
    rcases bind_eq_error.mp h with h | ⟨vars', -, h⟩
    · exact Item.speaks (fun s hs => hp s (hs ▸ List.mem_cons_self ..)) h
    · exact ih (fun s hs => hp s (List.mem_cons_of_mem _ hs)) h

end Source

/-- Every text that does not compile is refused in words. -/
theorem message_of_refused {src : Text.Bytes} {e : CompileError} (h : compile src = .error e) :
    ∃ text, e.message? = some text := by
  unfold compile at h
  cases hparse : Source.parse src with
  | error e' =>
    rw [hparse] at h
    cases h
    exact ⟨_, rfl⟩
  | ok p =>
    rw [hparse] at h
    obtain ⟨l, -, hderives⟩ := derives_of_parse hparse
    have hspelled : ∀ s, Item.stmt s ∈ p → ∀ q ∈ s.parts, q.Spelled fun _ => True :=
      hderives.spelled fun _ _ => trivial
    cases hcheck : checkProgram [] p with
    | error e' =>
      have hbuild : build p = .error e' := by
        rw [build, hcheck]
        rfl
      simp only [hbuild] at h
      cases h
      obtain ⟨text, htext⟩ := checkProgram_speaks hspelled hcheck
      exact ⟨_, by rw [CompileError.message?, htext]; rfl⟩
    | ok vars =>
      -- the graph of a program that passes the check is not refused
      simp only [build_of_check hcheck] at h
      cases h

/-! ## Graphs of compiled programs -/

/-- The variable and the slot of an access are there. -/
def Access.InRange (vars : Variables) (x : Access) : Prop :=
  (∃ i, vars.of x = some i ∧ i < vars.length) ∧
    ∃ i, Signs.slotOf vars x = .ok i ∧ i < Signs.slotCount vars

/-- What breaks off on damaged graphs, or does not end there, works on this one, and accesses are
in range. -/
structure Graph.Safe (g : Graph) : Prop where
  /-- Arithmetic is made of numbers, accesses and arithmetic operators, guards of truth values,
  connectives and relations. -/
  typed : g.WellTyped
  accesses : ∀ e ∈ g.edges, ∀ x ∈ e.action.uses ++ e.action.defines.toList, x.InRange g.vars
  live : (liveVariables g).StopsWithin g (1 + g.vars.length) ∧
    (liveVariables g).InRange g (Strict.live g) fun m => ∀ i, m.has i = true → i < g.vars.length
  reaching : (reachingDefinitions g).StopsWithin g (1 + g.vars.length * (g.edges.size + 1)) ∧
    (reachingDefinitions g).InRange g (Strict.definitions g) fun m =>
      m.length = g.vars.length ∧ ∀ i s, (m.setAt i).has s = true → s < g.edges.size + 1
  signs : (signDetection g).StopsWithin g (2 + 3 * Signs.slotCount g.vars) ∧
    (signDetection g).InRange g (Strict.signs g) fun m =>
      m.slots.length = Signs.slotCount g.vars ∧
        m.slots.length = (g.vars.flatMap Signs.slotNames).length ∧
        (m.unreachable = false → ∀ i, i < m.slots.length → (m.slot i).isEmpty = false)
  order : ∀ reverse, ∃ ord, g.depthFirst reverse = .ok ord ∧
    ord.order.Perm (List.range g.nodes.size) ∧ ord.rank.size = g.nodes.size ∧
    ∀ i, i < g.nodes.size → ∃ r, r < g.nodes.size ∧ ord.rank[i]? = some r ∧ ord.order[r]? = some i
  stats : ∃ stats, g.stats = .ok stats
  dot : ∀ name, ∃ text, g.dot name = .ok text ∧ g.IsDrawing name text
  /-- The rounds of the search for post-dominators come to an end. -/
  postDominators : ∃ exit ord sets, g.depthFirst true = .ok ord ∧ g.postDominators = .ok sets ∧
    ReflTransGen (g.Round exit ord.order) (g.widest exit) sets ∧ g.Calm exit ord.order sets ∧
    sets.size = g.nodes.size ∧ ∀ v x, (sets.setAt v).has x = true → x < g.nodes.size
  dependences : ∃ d, DependenceGraph.ofGraph g = .ok d ∧
    (∀ x ∈ d.dependences, g.ListsEdge x.source ∧ g.ListsEdge x.target) ∧
    ∀ dir only (i : Nat), i < g.edges.size →
      ∃ S, d.slice dir only i = some S ∧ ∀ x ∈ S, g.ListsEdge x

theorem Analysis.InRange.imp {M : Type} {a : Analysis M} {g : Graph} {o : Strict.Operations M}
    {P Q : M → Prop} (h : a.InRange g o P) (hPQ : ∀ m, P m → Q m) : a.InRange g o Q where
  chaotic c hc := by
    obtain ⟨hnext, hsize, hfits, htodo⟩ := h.chaotic c hc
    exact ⟨hnext, hsize, fun i m hm => hPQ m (hfits i m hm), htodo⟩
  worklist s c hc := by
    obtain ⟨hnext, hsize, hfits, hfrontier, htodo⟩ := h.worklist s c hc
    exact ⟨hnext, hsize, fun i m hm => hPQ m (hfits i m hm), hfrontier, htodo⟩

theorem Signs.length_slotNames (vars : Variables) :
    (vars.flatMap slotNames).length = slotCount vars := by
  induction vars with
  | nil => rfl
  | cons d rest ih =>
    have hwidth : (slotNames d).length = width d := by
      unfold slotNames width
      split <;> rfl
    rw [List.flatMap_cons, List.length_append, slotCount_cons, hwidth, ih]

namespace Graph.Coherent

variable {g : Graph} (hg : g.Coherent)

include hg

/-- The loops for live variables end, with variables in range on the way. -/
theorem liveVariables_ends : (liveVariables g).StopsWithin g (1 + g.vars.length) ∧
    (liveVariables g).InRange g (Strict.live g) fun m =>
      ∀ i, m.has i = true → i < g.vars.length :=
  ⟨(liveVariablesDomain hg).stopsWithin hg,
    (liveVariablesDomain hg).inRange hg (Strict.live_agree hg)⟩

/-- The loops for reaching definitions end, with variables and definitions in range on the way. -/
theorem reachingDefinitions_ends :
    (reachingDefinitions g).StopsWithin g (1 + g.vars.length * (g.edges.size + 1)) ∧
      (reachingDefinitions g).InRange g (Strict.definitions g) fun m =>
        m.length = g.vars.length ∧ ∀ i s, (m.setAt i).has s = true → s < g.edges.size + 1 :=
  ⟨(reachingDefinitionsDomain hg).stopsWithin hg,
    ((reachingDefinitionsDomain hg).inRange hg (Strict.definitions_agree hg)).imp
      fun _ hm => ⟨hm.1, hm.2⟩⟩

/-- The loops for signs end, with as many slots as the variables have on the way. -/
theorem signDetection_ends (ht : g.WellTyped) :
    (signDetection g).StopsWithin g (2 + 3 * Signs.slotCount g.vars) ∧
      (signDetection g).InRange g (Strict.signs g) fun m =>
        m.slots.length = Signs.slotCount g.vars ∧
          m.slots.length = (g.vars.flatMap Signs.slotNames).length ∧
          (m.unreachable = false → ∀ i, i < m.slots.length → (m.slot i).isEmpty = false) := by
  refine ⟨(signDetectionDomain hg ht).stopsWithin hg,
    ((signDetectionDomain hg ht).inRange hg (Strict.signs_agree hg ht)).imp ?_⟩
  intro m hm
  have hlength : m.slots.length = Signs.slotCount g.vars := hm.shaped
  refine ⟨hlength, hlength.trans (Signs.length_slotNames g.vars).symm, fun hm' i hi => ?_⟩
  obtain ⟨x, hx⟩ := (hm.slot hm' i (hlength ▸ hi)).nonempty
  exact SignSet.isEmpty_eq_false hx

/-- A coherent graph with types and plain texts is safe. -/
theorem safe (ht : g.WellTyped) (hplain : g.Plain) : g.Safe where
  typed := ht
  accesses e he x hx := by
    obtain ⟨i, hi⟩ := hg.declared he x hx
    exact ⟨⟨i, hi, Variables.lt_of_of_eq_some hi⟩, Signs.exists_slotOf hi⟩
  live := hg.liveVariables_ends
  reaching := hg.reachingDefinitions_ends
  signs := hg.signDetection_ends ht
  order := hg.depthFirst_ranks
  stats := hg.exists_stats
  dot := hg.exists_dot hplain
  postDominators := hg.exists_postDominators
  dependences := by
    obtain ⟨d, hd, -⟩ := DependenceGraph.ofGraph_eq_ok hg
    refine ⟨d, hd, (DependenceGraph.ofGraph_listed hg hd).2, fun dir only i hi => ?_⟩
    exact DependenceGraph.slice_listed hg hd dir only hi

end Graph.Coherent

/--
No text makes the library break off, or go on without end.  A text that compiles has a graph on
which everything can be done, with accesses in range on the way, and every analysis of it gives a
report with every solver. A text that does not compile is refused with a message.
-/
theorem compiled_texts_are_safe (src : Text.Bytes) :
    (∀ b, compile src = .ok b → b.graph.Safe ∧
      ∀ k ∈ AnalysisKind.all, ∀ s ∈ SolverKind.all, ∃ r, solve false b k s = .ok r) ∧
    ∀ e, compile src = .error e → ∃ text, e.message? = some text := by
  refine ⟨fun b hb => ?_, fun e he => message_of_refused he⟩
  obtain ⟨p, -, hbuild⟩ := compile_eq_ok hb
  have hg := coherent_of_build hbuild
  have ht := wellTyped_of_build hbuild
  refine ⟨hg.safe ht (plain_graph_of_build hbuild), fun k hk s hs => ?_⟩
  obtain ⟨nodes, hnodes⟩ := solve_nodeList hg ht hk
  obtain ⟨r, hr, -⟩ := hnodes s hs
  exact ⟨r, hr⟩

/-- Divisions by zero and by what they give, and negated guards over an array and a record. -/
def hazardText : Text.Bytes :=
  Text.toBytes ("int x; int[3] a; \x7bint fst; int snd\x7d r; x := 1 / 0; " ++
    "while (not (a[x % x] > 0 & not r.snd == x / x)) \x7b r.snd := a[r.fst] % x; \x7d write r.snd;")

/-- A use of a variable that is not declared. -/
def strayText : Text.Bytes := Text.toBytes "int x; if (x > 0) \x7b y := x; \x7d"

/-- The first text compiles and can be analysed and sliced, the second one is refused. -/
theorem compiled_texts_are_safe_hazard :
    (∃ b, compile hazardText = .ok b ∧ b.graph.edges.size = 8 ∧ b.graph.Safe ∧
      (∃ r, solve false b .sign (.worklist .roundRobin) = .ok r) ∧
      ∃ d S, DependenceGraph.ofGraph b.graph = .ok d ∧ d.slice .forward (some "x") 3 = some S) ∧
    ∃ e text, compile strayText = .error e ∧ e.message? = some text := by
  have hsize : (compile hazardText).toOption.map (·.graph.edges.size) = some 8 := by decide +kernel
  have hstray : (compile strayText).toOption = none := by decide +kernel
  constructor
  · cases hb : compile hazardText with
    | error e => simp [hb, Except.toOption] at hsize
    | ok b =>
      have hedges : b.graph.edges.size = 8 := by simpa [hb, Except.toOption] using hsize
      obtain ⟨hsafe, hsolve⟩ := (compiled_texts_are_safe hazardText).1 b hb
      obtain ⟨d, hd, -, hslice⟩ := hsafe.dependences
      obtain ⟨S, hS, -⟩ := hslice .forward (some "x") 3 (by omega)
      exact ⟨b, rfl, hedges, hsafe, hsolve .sign (by decide) _ (by decide), d, S, hd, hS⟩
  · cases he : compile strayText with
    | ok b => simp [he, Except.toOption] at hstray
    | error e =>
      obtain ⟨text, htext⟩ := (compiled_texts_are_safe strayText).2 e he
      exact ⟨e, text, rfl, htext⟩

end MicroFlow
