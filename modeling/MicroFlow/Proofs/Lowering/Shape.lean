import MicroFlow.Proofs.Graph.Dot
import MicroFlow.Proofs.Graph.Path
import MicroFlow.Proofs.Lowering.Built
import MicroFlow.Proofs.Lowering.Figures

/-!
# The shape of built graphs

What later steps take for granted about a graph that was built from a program tree, in one
place (`Graph.Shape`): numbers are positions, nodes list their own edges in order, one node is
the end, every other node has one way on or the two ways of a condition, edges are told apart by
their ends, and every node lies between the entry and the exit.

The layout has these properties as a list of arrows (`Departures`, `Arrow.Reaches`,
`Arrow.Simple`).  Here they are carried over to the graph of the arrows, whose nodes list the
positions of arrows: `Arrow.positions_eq_filter` says that the positions stand in order, and
`Arrow.map_positions` which arrows they lead to.
-/

namespace MicroFlow

/-! ## Positions of arrows -/

namespace Arrow

/-- Positions ascend. -/
theorem positions_eq_filter (p : Arrow → Bool) (arrows : List Arrow) :
    positions p arrows = (List.range arrows.length).filter fun i => arrows[i]?.any p := by
  -- the same with the positions counted from any number on
  have hfrom : ∀ (as : List Arrow) (k : Nat), ((as.zipIdx k).filter fun x => p x.1).map (·.2) =
      (List.range' k as.length).filter fun i => as[i - k]?.any p := by
    intro as
    induction as with
    | nil => simp
    | cons a as ih =>
      intro k
      have hrest : ((List.range' (k + 1) as.length).filter fun i => (a :: as)[i - k]?.any p) =
          (List.range' (k + 1) as.length).filter fun i => as[i - (k + 1)]?.any p := by
        refine List.filter_congr fun i hi => ?_
        have hle : k + 1 ≤ i := (List.mem_range'_1.mp hi).1
        have hik : i - k = (i - (k + 1)) + 1 := by omega
        rw [hik, List.getElem?_cons_succ]
      rw [List.zipIdx_cons, List.length_cons, List.range'_succ, List.filter_cons, List.filter_cons,
        hrest, ← ih (k + 1)]
      by_cases ha : p a
      · simp [ha]
      · simp [ha]
  rw [List.range_eq_range']
  exact hfrom arrows 0

/-- The arrows at these positions, in their order. -/
theorem map_positions (p : Arrow → Bool) (arrows : List Arrow) :
    (positions p arrows).map (arrows[·]?) = (arrows.filter p).map some := by
  have hat : ∀ x ∈ arrows.zipIdx.filter fun x => p x.1, arrows[x.2]? = some x.1 := by
    intro x hx
    have hmem := (List.mem_filter.mp hx).1
    simpa using List.mem_zipIdx_iff_getElem?.mp hmem
  have hfst : (arrows.zipIdx.filter fun x => p x.1).map Prod.fst = arrows.filter p := by
    have hmap := List.filter_map (f := Prod.fst) (p := p) (l := arrows.zipIdx)
    rw [List.zipIdx_map_fst] at hmap
    exact hmap.symm
  calc (positions p arrows).map (arrows[·]?)
      = (arrows.zipIdx.filter fun x => p x.1).map fun x => arrows[x.2]? := by
        rw [positions, List.map_map]
        rfl
    _ = (arrows.zipIdx.filter fun x => p x.1).map fun x => some x.1 := List.map_congr_left hat
    _ = (arrows.filter p).map some := by
        rw [← hfst, List.map_map]
        rfl

end Arrow

namespace Graph

/-- The positions of the edges that satisfy a test, in order. -/
def slots (g : Graph) (p : Edge → Bool) : List Nat :=
  (List.range g.edges.size).filter fun i => g.edges[i]?.any p

/-- The ways on from a node that lists its outgoing edges: one that is no guard, or a condition. -/
inductive WaysOn (g : Graph) : List Nat → Prop
  | single {i : Nat} {e : Edge} (edge : g.edges[i]? = some e)
      (not_guard : e.action.kind ≠ .boolean) :
      WaysOn g [i]
  | branch {i j : Nat} {e f : Edge} {c : Expr} (first : g.edges[i]? = some e)
      (second : g.edges[j]? = some f) (holds : e.action = .branch c)
      (fails : f.action = .branch c.negation) : WaysOn g [i, j]

/-- The shape of the graph of a program. -/
structure Shape (g : Graph) : Prop where
  node_id : ∀ i, i < g.nodes.size → ∃ n, g.nodeAt? i = some n ∧ n.id = i
  edge_id : ∀ (i : Nat) (e : Edge), g.edges[i]? = some e → e.id = i
  out : ∀ (p : Nat) (n : Node), g.nodeAt? p = some n → n.out = g.slots (·.source == .listed p)
  into : ∀ (p : Nat) (n : Node), g.nodeAt? p = some n → n.into = g.slots (·.target == .listed p)
  exit : ∃ t, t < g.nodes.size ∧ g.exit = .listed t ∧
    ∀ (p : Nat) (n : Node), g.nodeAt? p = some n → (n.terminal = true ↔ p = t)
  ways_exit : ∀ (p : Nat) (n : Node), g.nodeAt? p = some n → n.terminal = true → n.out = []
  ways_on : ∀ (p : Nat) (n : Node), g.nodeAt? p = some n → n.terminal = false → g.WaysOn n.out
  plain : g.Plain
  reachable : ∀ p, p < g.nodes.size → g.Reachable p
  reaches_exit : ∀ p, p < g.nodes.size → g.ReachesExit p

/-! ## Graphs of arrows -/

section OfArrows

variable {points finish : Nat} {arrows : List Arrow} {vars : Variables}

/-- The slots of edges are the positions of their arrows. -/
theorem slots_ofArrows (p : Edge → Bool) (q : Arrow → Bool)
    (hpq : ∀ i a, p (edgeOf i a) = q a) :
    (ofArrows points arrows finish vars).slots p = Arrow.positions q arrows := by
  have hsize : (ofArrows points arrows finish vars).edges.size = arrows.length := by
    simp [ofArrows]
  rw [slots, Arrow.positions_eq_filter, hsize]
  refine List.filter_congr fun i _ => ?_
  rw [ofArrows_getElem?]
  cases arrows[i]? with
  | none => rfl
  | some a => exact hpq i a

theorem leads_ofArrows {a : Arrow} (h : a ∈ arrows) :
    ∃ e, (ofArrows points arrows finish vars).Leads e a.source a.target := by
  obtain ⟨i, hi⟩ := List.mem_iff_getElem?.mp h
  exact ⟨edgeOf i a, mem_ofArrows.mpr ⟨i, a, hi, rfl⟩, rfl, rfl⟩

/-- What arrows reach, paths reach. -/
theorem path_ofArrows {p q : Nat} (h : Arrow.Reaches arrows p q) :
    ∃ es, (ofArrows points arrows finish vars).Path p es q := by
  induction h with
  | refl => exact ⟨[], .nil p⟩
  | tail _ hlast ih =>
    obtain ⟨es, hes⟩ := ih
    obtain ⟨a, ha, rfl, rfl⟩ := hlast
    obtain ⟨e, he⟩ := leads_ofArrows ha
    exact ⟨es ++ [e], hes.append (.cons he (.nil _))⟩

/-- Simple arrows draw a plain graph. -/
theorem plain_ofArrows (h : Arrow.Simple arrows) : (ofArrows points arrows finish vars).Plain := by
  refine ⟨?_, ?_⟩
  · intro e he heq
    obtain ⟨i, a, ha, rfl⟩ := mem_ofArrows.mp he
    exact h.loopless a (List.mem_of_getElem? ha) (Endpoint.listed.inj heq)
  · intro i j e f he hf hs ht
    rw [ofArrows_getElem?, Option.map_eq_some_iff] at he hf
    obtain ⟨a, ha, rfl⟩ := he
    obtain ⟨b, hb, rfl⟩ := hf
    obtain ⟨hi, rfl⟩ := List.getElem?_eq_some_iff.mp ha
    obtain ⟨hj, rfl⟩ := List.getElem?_eq_some_iff.mp hb
    have hs' := Endpoint.listed.inj hs
    have ht' := Endpoint.listed.inj ht
    -- of two arrows at different positions the earlier one differs from the later one
    have hpair := List.pairwise_iff_getElem.mp h.distinct
    rcases Nat.lt_trichotomy i j with hij | hij | hij
    · exact absurd ht' (hpair i j hi hj hij hs')
    · exact hij
    · exact absurd ht'.symm (hpair j i hj hi hij hs'.symm)

/-- The ways on from a node are its departing arrows. -/
theorem waysOn_ofArrows {p : Nat} {n : Node}
    (hn : (ofArrows points arrows finish vars).nodeAt? p = some n)
    (h : Departures p (Arrow.leaving p arrows)) :
    (ofArrows points arrows finish vars).WaysOn n.out := by
  have hmap := Arrow.map_positions (·.source == p) arrows
  rw [← (ofArrows_nodeAt? hn).1] at hmap
  have hedge : ∀ {i : Nat} {a : Arrow}, arrows[i]? = some a →
      (ofArrows points arrows finish vars).edges[i]? = some (edgeOf i a) := by
    intro i a ha
    rw [ofArrows_getElem?, ha]
    rfl
  rw [Arrow.leaving] at h
  generalize arrows.filter (·.source == p) = departing at h hmap
  cases h with
  | single hkind =>
    obtain ⟨i, hout, hi⟩ := List.map_eq_singleton_iff.mp hmap
    rw [hout]
    exact .single (hedge hi) hkind
  | branch =>
    obtain ⟨i, rest, hout, hi, hrest⟩ := List.map_eq_cons_iff.mp hmap
    obtain ⟨j, hrest, hj⟩ := List.map_eq_singleton_iff.mp hrest
    rw [hout, hrest]
    exact .branch (hedge hi) (hedge hj) rfl rfl

end OfArrows

end Graph

/-! ## Built graphs -/

open Source

theorem plain_graph_of_build {p : Program} {b : Built} (h : build p = .ok b) : b.graph.Plain := by
  obtain ⟨vars, hvars, hg, -⟩ := build_eq_ok h
  rw [hg]
  exact Graph.plain_ofArrows (lowerProgram_simple (checked_of_checkProgram hvars))

/-- Every node lies between entry and exit. -/
theorem between_of_build {p : Program} {b : Built} (h : build p = .ok b) {q : Nat}
    (hq : q < b.graph.nodes.size) : b.graph.Reachable q ∧ b.graph.ReachesExit q := by
  obtain ⟨vars, hvars, hg, -⟩ := build_eq_ok h
  rw [hg] at hq ⊢
  have hlt : q < (lowerProgram 0 1 p).next := by simpa [Graph.ofProgram] using hq
  obtain ⟨hfrom, hto⟩ := lowerProgram_reaches (checked_of_checkProgram hvars) hlt
  obtain ⟨es, hes⟩ : ∃ es, (Graph.ofProgram vars p).Path q es (lowerProgram 0 1 p).finish :=
    Graph.path_ofArrows hto
  exact ⟨Graph.path_ofArrows hfrom, _, es, rfl, hes⟩

/--
The shape of built graphs.  For every program tree that has a graph the graph has the shape that
later steps rely on.  In particular it can be drawn, under any name: the text of the drawing has
a head, a line for each node, and one line for each edge, labelled with the action of that edge
alone.
-/
theorem build_gives_shape {p : Program} {b : Built} (h : build p = .ok b) :
    b.graph.Shape ∧ ∀ name, ∃ text, b.graph.dot name = .ok text ∧ b.graph.IsDrawing name text := by
  have hcoherent := coherent_of_build h
  have hplain := plain_graph_of_build h
  refine ⟨?_, hcoherent.exists_dot hplain⟩
  have hbetween := fun q hq => between_of_build h (q := q) hq
  obtain ⟨vars, hvars, hg, -⟩ := build_eq_ok h
  have hp := checked_of_checkProgram hvars
  have hfinish := lowerProgram_finish_lt hp
  rw [hg] at hcoherent hplain hbetween ⊢
  refine ⟨hcoherent.valid.node, hcoherent.valid.edge_id, ?_, ?_, ?_, ?_, ?_, hplain,
    fun q hq => (hbetween q hq).1, fun q hq => (hbetween q hq).2⟩
  · intro q n hn
    rw [(Graph.ofArrows_nodeAt? hn).1]
    exact (Graph.slots_ofArrows _ _ fun i a => by simp [Graph.edgeOf]).symm
  · intro q n hn
    rw [(Graph.ofArrows_nodeAt? hn).2.1]
    exact (Graph.slots_ofArrows _ _ fun i a => by simp [Graph.edgeOf]).symm
  · exact ⟨_, by simpa [Graph.ofProgram] using hfinish, rfl,
      fun q n hn => (Graph.ofArrows_nodeAt? hn).2.2⟩
  · intro q n hn hterminal
    -- no arrow leaves the end of the program
    have hq := (Graph.ofArrows_nodeAt? hn).2.2.mp hterminal
    rw [(Graph.ofArrows_nodeAt? hn).1, List.eq_nil_iff_forall_not_mem]
    intro i hi
    obtain ⟨a, ha, hs⟩ := Arrow.mem_positions.mp hi
    have hne := lowerProgram_source_ne hp (List.mem_of_getElem? ha)
    rw [beq_iff_eq] at hs
    exact hne (hs.trans hq)
  · intro q n hn hterminal
    have hne : q ≠ (lowerProgram 0 1 p).finish := by
      intro hq
      rw [(Graph.ofArrows_nodeAt? hn).2.2.mpr hq] at hterminal
      cases hterminal
    have hlt : q < (lowerProgram 0 1 p).next := by
      simpa [Graph.ofProgram] using Graph.lt_of_nodeAt? hn
    exact Graph.waysOn_ofArrows hn (lowerProgram_departures hp hlt hne)

/-- A loop around a branch, and nothing behind it:
`int x; while (x > 0) { if (x == 1) … else … }`. -/
def windingProgram : Program :=
  let x : Arith := .access default .scalar "x" .missing ""
  let place : Place := ⟨default, .scalar, "x", .missing, ""⟩
  let set (n : Int) : Stmt := .assign default (some place) (.num default n)
  [.declare default .scalar "x" 0,
    .stmt (.loop default (.rel default (.rel .gt) x (.num default 0))
      (.ofList [.ifElse default (.rel default (.rel .eq) x (.num default 1))
        (.ofList [set 0]) (.ofList [.write default x, set 1])]))]

/-- In the graph of the program both blocks of the branch end at the head of the loop. -/
theorem build_gives_shape_winding :
    ∃ b, build windingProgram = .ok b ∧ b.graph.nodes.size = 7 ∧ b.graph.Shape ∧
      (∃ e f, b.graph.edges[4]? = some e ∧ b.graph.edges[6]? = some f ∧ e.target = f.target ∧
        e.source ≠ f.source) ∧
      ∃ text, b.graph.dot "winding" = .ok text ∧ b.graph.IsDrawing "winding" text := by
  obtain ⟨b, hb, hsize, hedges⟩ : ∃ b, build windingProgram = .ok b ∧ b.graph.nodes.size = 7 ∧
      ∃ e f, b.graph.edges[4]? = some e ∧ b.graph.edges[6]? = some f ∧ e.target = f.target ∧
        e.source ≠ f.source :=
    ⟨_, rfl, rfl, _, _, rfl, rfl, rfl, by decide⟩
  obtain ⟨hshape, hdot⟩ := build_gives_shape hb
  exact ⟨b, hb, hsize, hshape, hedges, hdot "winding"⟩

end MicroFlow
