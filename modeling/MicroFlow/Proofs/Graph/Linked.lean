import MicroFlow.Proofs.Graph.Path

/-!
# Linked graphs

`Graph.Linked` is coherence without the condition on the exit: the exit of a graph that
passes validation can be a terminal node of its own, which the graph does not list.  An
analysis that runs along the edges never looks at it.

Both this and `Graph.Dense`, which is less, can be decided by going through the nodes and the edges.
-/

namespace MicroFlow.Graph

/-- A graph that passes validation and whose nodes list exactly the edges that leave and
enter them. -/
structure Linked (g : Graph) : Prop where
  validated : g.validate = .ok ()
  out : ∀ (p : Nat) (n : Node), g.nodeAt? p = some n →
    ∀ i, i ∈ n.out ↔ ∃ e, g.edges[i]? = some e ∧ e.source = .listed p
  into : ∀ (p : Nat) (n : Node), g.nodeAt? p = some n →
    ∀ i, i ∈ n.into ↔ ∃ e, g.edges[i]? = some e ∧ e.target = .listed p

/-- The nodes carry their positions, edges run between them, and every node lists exactly the edges
that leave and enter it. -/
structure Dense (g : Graph) : Prop where
  node : ∀ i, i < g.nodes.size → ∃ n, g.nodeAt? i = some n ∧ n.id = i
  ends : ∀ e ∈ g.edges, (∃ p, p < g.nodes.size ∧ e.source = .listed p) ∧
    ∃ q, q < g.nodes.size ∧ e.target = .listed q
  out : ∀ (p : Nat) (n : Node), g.nodeAt? p = some n →
    ∀ i, i ∈ n.out ↔ ∃ e, g.edges[i]? = some e ∧ e.source = .listed p
  into : ∀ (p : Nat) (n : Node), g.nodeAt? p = some n →
    ∀ i, i ∈ n.into ↔ ∃ e, g.edges[i]? = some e ∧ e.target = .listed p

theorem Coherent.dense {g : Graph} (h : g.Coherent) : g.Dense where
  node := h.valid.node
  ends e he := ⟨h.valid.source e he, h.valid.target e he⟩
  out := h.out
  into := h.into

/-- A coherent graph is a linked one whose exit is among its nodes. -/
theorem coherent_iff {g : Graph} :
    g.Coherent ↔ g.Linked ∧ ∃ q, q < g.nodes.size ∧ g.exit = .listed q :=
  ⟨fun h => ⟨⟨h.validated, h.out, h.into⟩, h.exit_listed⟩,
    fun ⟨h, hexit⟩ => ⟨h.validated, h.out, h.into, hexit⟩⟩

/-! ## Deciding -/

/-- A list holds exactly the positions of the edges whose end is the given node. -/
def Lists (g : Graph) (stop : Edge → Endpoint) (p : Nat) (listed : List Nat) : Prop :=
  (∀ i ∈ listed, g.edges[i]?.map stop = some (.listed p)) ∧
    ∀ i, i < g.edges.size → g.edges[i]?.map stop = some (.listed p) → i ∈ listed

instance (g : Graph) (stop : Edge → Endpoint) (p : Nat) (listed : List Nat) :
    Decidable (g.Lists stop p listed) := inferInstanceAs (Decidable (_ ∧ _))

variable {p : Nat}

/-- A node lists exactly the edges that stop at it. -/
theorem lists_iff {g : Graph} {stop : Edge → Endpoint} {listed : List Nat} :
    g.Lists stop p listed ↔ ∀ i, i ∈ listed ↔ ∃ e, g.edges[i]? = some e ∧ stop e = .listed p := by
  constructor
  · rintro ⟨hsound, hfull⟩ i
    constructor
    · intro hi
      simpa using hsound i hi
    · rintro ⟨e, he, hp⟩
      exact hfull i (Array.getElem?_eq_some_iff.mp he).1 (by simp [he, hp])
  · intro h
    refine ⟨fun i hi => ?_, fun i _ hp => ?_⟩
    · simpa using (h i).mp hi
    · exact (h i).mpr (by simpa using hp)

/-- Every node lists exactly the edges that leave and enter it. -/
def ListsOwn (g : Graph) : Prop := ∀ p, p < g.nodes.size → ∀ n ∈ g.nodeAt? p,
  g.Lists Edge.source p n.out ∧ g.Lists Edge.target p n.into

instance (g : Graph) : Decidable g.ListsOwn := inferInstanceAs (Decidable (∀ _, _))

theorem listsOwn_iff {g : Graph} : g.ListsOwn ↔
    (∀ (p : Nat) (n : Node), g.nodeAt? p = some n →
      ∀ i, i ∈ n.out ↔ ∃ e, g.edges[i]? = some e ∧ e.source = .listed p) ∧
    ∀ (p : Nat) (n : Node), g.nodeAt? p = some n →
      ∀ i, i ∈ n.into ↔ ∃ e, g.edges[i]? = some e ∧ e.target = .listed p := by
  constructor
  · intro h
    refine ⟨fun p n hn => ?_, fun p n hn => ?_⟩
    · exact lists_iff.mp (h p (lt_of_nodeAt? hn) n hn).1
    · exact lists_iff.mp (h p (lt_of_nodeAt? hn) n hn).2
  · rintro ⟨hout, hinto⟩ p _ n hn
    exact ⟨lists_iff.mpr (hout p n hn), lists_iff.mpr (hinto p n hn)⟩

/-- What can be computed of a linked graph. -/
theorem linked_iff {g : Graph} : g.Linked ↔ g.validate = .ok () ∧ g.ListsOwn := by
  rw [listsOwn_iff]
  exact ⟨fun h => ⟨h.validated, h.out, h.into⟩, fun ⟨hvalid, hout, hinto⟩ => ⟨hvalid, hout, hinto⟩⟩

instance (g : Graph) : Decidable g.Linked := decidable_of_iff _ linked_iff.symm

theorem dense_iff {g : Graph} : g.Dense ↔
    (∀ i, i < g.nodes.size → (g.nodeAt? i).map Node.id = some (i : Int)) ∧
    (∀ e ∈ g.edges, (∃ p, p < g.nodes.size ∧ e.source = .listed p) ∧
      ∃ q, q < g.nodes.size ∧ e.target = .listed q) ∧ g.ListsOwn := by
  simp only [listsOwn_iff, Option.map_eq_some_iff]
  exact ⟨fun h => ⟨h.node, h.ends, h.out, h.into⟩,
    fun ⟨hnode, hends, hout, hinto⟩ => ⟨hnode, hends, hout, hinto⟩⟩

instance (g : Graph) : Decidable g.Dense := decidable_of_iff _ dense_iff.symm

instance (g : Graph) : Decidable g.Coherent :=
  decidable_of_iff (g.Linked ∧ ∃ q, q < g.nodes.size ∧ g.exit = .listed q) coherent_iff.symm

/-! ## Another exit -/

/-- The graph with the node at a position for its exit. -/
def withExit (g : Graph) (t : Nat) : Graph := { g with exit := .listed t }

section

variable {g : Graph} {t : Nat} {q : Nat} {es : List Edge}

theorem Path.mem_edges (h : g.Path p es q) : ∀ e ∈ es, e ∈ g.edges := by
  induction h with
  | nil p => simp
  | cons hfirst _ ih => exact List.forall_mem_cons.mpr ⟨hfirst.mem, ih⟩

theorem Path.of_edges {g' : Graph} (hedges : g.edges = g'.edges)
    (h : g.Path p es q) : g'.Path p es q := by
  induction h with
  | nil p => exact .nil p
  | cons hfirst _ ih => exact .cons ⟨hedges ▸ hfirst.mem, hfirst.source, hfirst.target⟩ ih

/-- Paths do not depend on the exit. -/
theorem path_withExit : (g.withExit t).Path p es q ↔ g.Path p es q := by
  have hedges : (g.withExit t).edges = g.edges := rfl
  exact ⟨fun h => h.of_edges hedges, fun h => h.of_edges hedges.symm⟩

/-- Nor does the check of the edges. -/
theorem checkEdges_withExit (edges : List Edge) : ∀ slot : Nat,
    (g.withExit t).checkEdges slot edges = g.checkEdges slot edges := by
  induction edges with
  | nil =>
    intro slot
    rfl
  | cons e rest ih =>
    intro slot
    rw [checkEdges, checkEdges, ih]
    rfl

/-- What validation checks. -/
theorem parts_of_validate (h : g.validate = .ok ()) :
    checkNodes 0 g.nodes.toList = .ok () ∧ g.terminalCount = 1 ∧
      g.checkEdges 0 g.edges.toList = .ok () := by
  rw [validate, check_bind_eq_ok, bind_eq_ok] at h
  obtain ⟨hnodes, exit, -, h⟩ := h
  split at h
  · cases h
  · rename_i hterm
    push Not at hterm
    exact ⟨hnodes, hterm.1, h⟩

/-- A linked graph has a terminal node, and is coherent once its exit leads there. -/
theorem Linked.exists_coherent (h : g.Linked) : ∃ t, (g.withExit t).Coherent := by
  obtain ⟨hnodes, hcount, hedges⟩ := parts_of_validate h.validated
  obtain ⟨x, hx⟩ : ∃ x, x ∈ g.nodes.toList.filter fun n => (n.map Node.terminal).getD false := by
    refine List.exists_mem_of_length_pos ?_
    rw [terminalCount] at hcount
    omega
  obtain ⟨hmem, hterm⟩ := List.mem_filter.mp hx
  cases x with
  | none => cases hterm
  | some n =>
    obtain ⟨t, ht⟩ := List.mem_iff_getElem?.mp hmem
    rw [Array.getElem?_toList] at ht
    have hlt : t < g.nodes.size := (Array.getElem?_eq_some_iff.mp ht).1
    have hnode : g.nodeAt? t = some n := by
      rw [nodeAt?, ht]
      rfl
    have hexit : (g.withExit t).exitNode = .ok n := nodeAt_eq_ok.mpr hnode
    refine ⟨t, ⟨?_, h.out, h.into, t, hlt, rfl⟩⟩
    rw [validate, check_bind_eq_ok, bind_eq_ok]
    refine ⟨hnodes, n, by rw [hexit]; rfl, ?_⟩
    have hone : (g.withExit t).terminalCount = 1 := hcount
    have hlast : n.terminal = true := hterm
    rw [if_neg (by rw [hone, hlast]; simp), checkEdges_withExit]
    exact hedges

end

end MicroFlow.Graph
