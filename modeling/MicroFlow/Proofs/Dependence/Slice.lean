import MicroFlow.Proofs.Dependence.Graph
import MicroFlow.Proofs.Dependence.Search
import MicroFlow.Proofs.Lowering.Built

/-!
# Backward slices hold all that an edge depends on

A backward slice is closed under dependence (`slice_eq_some`).  So the nodes that the edges of a
backward slice leave are closed as well (`closed_of_slice`), and what the edge of the slice sees of
a run depends on no input but that of the reads in the slice (`backward_slice_noninterference`).
-/

namespace MicroFlow

namespace DependenceGraph

/-- The backward slice of an edge has the edge and, with an edge, all that it depends on. -/
theorem slice_eq_some (d : DependenceGraph) {i : Nat} (hi : i < d.program.edges.size) :
    ∃ S, d.slice .backward none i = some S ∧ (i : Int) ∈ S ∧
      ∀ x ∈ d.dependences, x.target ∈ S → x.source ∈ S := by
  obtain ⟨S, hS, -, hmem⟩ := d.exists_slice .backward none hi
  refine ⟨S, hS, (hmem i).mpr .refl, fun x hx htarget => ?_⟩
  refine (hmem x.source).mpr (((hmem x.target).mp htarget).tail ?_)
  exact mem_neighbours_backward.mpr ⟨x, hx, rfl, rfl, by simp⟩

/-! ## The nodes of a slice -/

/-- An edge of the slice leaves the node. -/
def LeftBy (g : Graph) (S : List Int) (n : Nat) : Prop :=
  ∃ (j : Nat) (f : Edge), g.edges[j]? = some f ∧ f.source = .listed n ∧ (j : Int) ∈ S

/-- The nodes that a slice leaves are closed under dependence by paths. -/
theorem closed_of_slice {g : Graph} (hb : g.Branching) {d : DependenceGraph} (hd : d.Complete g)
    {S : List Int} (hS : ∀ x ∈ d.dependences, x.target ∈ S → x.source ∈ S) :
    g.Closed (LeftBy g S) := by
  constructor
  · rintro f p q n x hf hp hwrites hcarries ⟨e, he, hs, u, hu, rfl⟩ ⟨i, e', hi, hs', hmem⟩
    obtain ⟨j, hj⟩ := Array.mem_iff_getElem?.mp hf.mem
    obtain ⟨k, hk⟩ := Array.mem_iff_getElem?.mp he
    -- the edge of the slice that leaves the node uses the variable too
    have hu' : u ∈ e'.action.uses := by
      rw [← hb.uses_eq hk hi hs hs']
      exact hu
    exact ⟨j, f, hj, hf.source, hS _ (hd.data hj hf hp hwrites hcarries hi hs' hu') hmem⟩
  · rintro f p q m hf hkind hq hp ⟨i, e', hi, hs', hmem⟩
    obtain ⟨j, hj⟩ := Array.mem_iff_getElem?.mp hf.mem
    exact ⟨j, f, hj, hf.source, hS _ (hd.control hj hf hkind hq hp hi hs') hmem⟩

/-- An edge that reads is in the slice if its node is left by the slice. -/
theorem mem_of_leftBy {g : Graph} (hb : g.Branching) {S : List Int} {r n : Nat} {f : Edge}
    (hr : g.edges[r]? = some f) (hs : f.source = .listed n) (hkind : f.action.kind = .read)
    (hn : LeftBy g S n) : (r : Int) ∈ S := by
  obtain ⟨j, f', hj, hs', hmem⟩ := hn
  have hrj : r = j := hb.only hr hj hs hs' (by rw [hkind]; decide)
  rw [hrj]
  exact hmem

end DependenceGraph

/-! ## Noninterference -/

/--
Input outside the backward slice of an edge does not matter to the edge.  Two runs of a program
from one store, whose reads in the slice receive the same, execute the edge equally often, and
its successive executions find the same values in all that it uses.
-/
theorem backward_slice_noninterference {src : Text.Bytes} {b : Built} (h : compile src = .ok b)
    {i : Nat} {e : Edge} (he : b.graph.edges[i]? = some e) :
    ∃ d S, DependenceGraph.ofGraph b.graph = .ok d ∧ d.slice .backward none i = some S ∧
      ∀ (store : Store Int) (feed feed' : Nat → Nat → Int) (t : Nat)
        (events events' : List (Event Int)),
        (∀ (r : Nat) (f : Edge), b.graph.edges[r]? = some f → f.action.kind = .read →
          (r : Int) ∈ S → ∀ k, feed r k = feed' r k) →
        b.graph.exit = .listed t →
        b.graph.Trace .halting feed 0 store (fun _ => 0) events t →
        b.graph.Trace .halting feed' 0 store (fun _ => 0) events' t →
        observations .halting b.graph.vars i e.action events =
            observations .halting b.graph.vars i e.action events' ∧
          events.countP (·.edge == i) = events'.countP (·.edge == i) := by
  obtain ⟨p, -, hp⟩ := compile_eq_ok h
  have hg : b.graph.Coherent := coherent_of_build hp
  have hb : b.graph.Branching := branching_of_build hp
  obtain ⟨d, hd, hprogram, hcomplete⟩ := DependenceGraph.ofGraph_eq_ok hg
  have hi : i < d.program.edges.size := by
    rw [hprogram]
    exact (Array.getElem?_eq_some_iff.mp he).1
  obtain ⟨S, hS, hmem, hclosed⟩ := d.slice_eq_some hi
  refine ⟨d, S, hd, hS, fun store feed feed' t events events' hfeed hexit htrace htrace' => ?_⟩
  -- the nodes that the slice leaves are closed, and both runs start aligned
  obtain ⟨n, -, hs⟩ := hg.valid.source e (Array.mem_of_getElem? he)
  have hobs := (DependenceGraph.closed_of_slice hb hcomplete hclosed).observations_eq hb hexit he hs
    ⟨i, e, he, hs, hmem⟩
    (fun r f k hr hrs hk hkind => funext (hfeed r f hr hkind
      (DependenceGraph.mem_of_leftBy hb hr hrs hkind hk)))
    (Aligned.refl (a := ⟨0, store, fun _ => 0⟩) ⟨[], .nil 0⟩) htrace htrace'
  refine ⟨hobs, ?_⟩
  have hlength := congrArg List.length hobs
  simpa [observations, List.countP_eq_length_filter] using hlength

/-- Counts down from one input, and writes another one if it exceeds 2. -/
def detour : Text.Bytes :=
  ("int x; int n; read x; read n; while (n > 0) \x7b n := n - 1; \x7d " ++
    "if (x > 2) \x7b write x; \x7d").toUTF8.toList

/-- The edges of `detour`, as far as the two runs take them. -/
def detourEdges : List Edge :=
  [⟨0, .listed 0, .listed 1, .declare ⟨"x", .scalar, 0⟩⟩,
    ⟨1, .listed 1, .listed 2, .declare ⟨"n", .scalar, 0⟩⟩,
    ⟨2, .listed 2, .listed 3, .read (.scalar "x")⟩,
    ⟨3, .listed 3, .listed 4, .read (.scalar "n")⟩,
    ⟨4, .listed 4, .listed 5, .branch (.node (.rel .gt) (.scalar "n") (.literal 0))⟩,
    ⟨5, .listed 5, .listed 4, .assign (.scalar "n")
      (.node (.arith .sub) (.scalar "n") (.literal 1))⟩,
    ⟨6, .listed 4, .listed 6, .branch (.negation (.node (.rel .gt) (.scalar "n") (.literal 0)))⟩,
    ⟨7, .listed 6, .listed 7, .branch (.node (.rel .gt) (.scalar "x") (.literal 2))⟩,
    ⟨8, .listed 7, .listed 8, .write (.scalar "x")⟩]

/-- A run that counts down and one that does not write the same. -/
theorem backward_slice_noninterference_detour :
    ∃ b d S, ∃ events events' : List (Event Int), compile detour = .ok b ∧
      DependenceGraph.ofGraph b.graph = .ok d ∧ d.slice .backward none 8 = some S ∧ 3 ∉ S ∧
      b.graph.Trace .halting (fun r _ => if r = 3 then 1 else 5) 0 (fun _ => 0) (fun _ => 0)
        events 8 ∧
      b.graph.Trace .halting (fun r _ => if r = 3 then 0 else 5) 0 (fun _ => 0) (fun _ => 0)
        events' 8 ∧
      events.length = 9 ∧ events'.length = 7 ∧
      observations .halting b.graph.vars 8 (.write (.scalar "x")) events = [[some 5]] ∧
      observations .halting b.graph.vars 8 (.write (.scalar "x")) events' = [[some 5]] := by
  have hcheck : (compile detour).toOption.map (fun b =>
      (b.graph.exit, b.graph.edges.toList.take 9, (DependenceGraph.ofGraph b.graph).toOption.map
        fun d => DependenceGraph.search (d.neighbours .backward none)
          (2 * d.dependences.length + 2) [8] [8])) =
      some (.listed 8, detourEdges, some [2, 7, 8]) := by
    decide +kernel
  cases hb : compile detour with
  | error e => simp [hb, Except.toOption] at hcheck
  | ok b =>
    simp only [hb, Except.toOption, Option.map_some, Option.some.injEq, Prod.mk.injEq] at hcheck
    obtain ⟨hexit, hedges, hsearch⟩ := hcheck
    have hat : ∀ (j : Nat) (e : Edge), detourEdges[j]? = some e → b.graph.edges[j]? = some e := by
      intro j e hj
      rw [← hedges, List.getElem?_take] at hj
      split at hj
      · simpa using hj
      · cases hj
    obtain ⟨d, S, hd, hS, hsame⟩ := backward_slice_noninterference hb (hat 8 _ rfl)
    simp only [hd, Option.map_some, Option.some.injEq] at hsearch
    have hmem : (3 : Int) ∉ S := by
      rw [DependenceGraph.slice] at hS
      split at hS
      · cases hS
      · cases hS
        rw [List.mem_mergeSort]
        exact fun h => absurd (hsearch ▸ h) (by decide)
    have htrace : ∃ events, b.graph.Trace .halting (fun r _ => if r = 3 then 1 else 5) 0
        (fun _ => 0) (fun _ => 0) events 8 ∧ events.length = 9 :=
      ⟨_, .step (hat 0 _ rfl) rfl rfl rfl <| .step (hat 1 _ rfl) rfl rfl rfl <|
        .step (hat 2 _ rfl) rfl rfl rfl <| .step (hat 3 _ rfl) rfl rfl rfl <|
        .step (hat 4 _ rfl) rfl rfl rfl <| .step (hat 5 _ rfl) rfl rfl rfl <|
        .step (hat 6 _ rfl) rfl rfl rfl <| .step (hat 7 _ rfl) rfl rfl rfl <|
        .step (hat 8 _ rfl) rfl rfl rfl <| .stop 8 _ _, rfl⟩
    have htrace' : ∃ events, b.graph.Trace .halting (fun r _ => if r = 3 then 0 else 5) 0
        (fun _ => 0) (fun _ => 0) events 8 ∧ events.length = 7 ∧
        observations .halting b.graph.vars 8 (.write (.scalar "x")) events = [[some 5]] :=
      ⟨_, .step (hat 0 _ rfl) rfl rfl rfl <| .step (hat 1 _ rfl) rfl rfl rfl <|
        .step (hat 2 _ rfl) rfl rfl rfl <| .step (hat 3 _ rfl) rfl rfl rfl <|
        .step (hat 6 _ rfl) rfl rfl rfl <| .step (hat 7 _ rfl) rfl rfl rfl <|
        .step (hat 8 _ rfl) rfl rfl rfl <| .stop 8 _ _, rfl, rfl⟩
    obtain ⟨events, htrace, hlength⟩ := htrace
    obtain ⟨events', htrace', hlength', hwritten⟩ := htrace'
    -- the runs receive the same but at edge 3, which is not in the slice
    have hobs := (hsame _ _ _ 8 events events' (fun r f _ _ hr k => by
      have hne : r ≠ 3 := by
        rintro rfl
        exact hmem hr
      rw [if_neg hne, if_neg hne]) hexit htrace htrace').1
    exact ⟨b, d, S, events, events', rfl, hd, hS, hmem, htrace, htrace', hlength, hlength',
      hobs.trans hwritten, hwritten⟩

end MicroFlow
