import MicroFlow.Graph.Stats
import MicroFlow.Proofs.Graph.Traversal

/-!
# Depth-first orders are reverse postorders

A node gets its place in the order when it is finished, before all that were finished earlier.  So
an edge from a node that the walk reaches leads to a node of higher rank, unless it leads back to an
ancestor along the tree edges; without cycles there is no such edge, and the order is topological.
-/

namespace MicroFlow

/-! ## Places in a list -/

variable {p q : Nat}

/-- What stands earlier in a list without repetition has the smaller index. -/
theorem idxOf_lt_of_sublist {l : List Nat} (hnodup : l.Nodup) (h : [p, q].Sublist l) :
    l.idxOf p < l.idxOf q := by
  induction l with
  | nil => cases h
  | cons x rest ih =>
    obtain ⟨hx, hrest⟩ := List.nodup_cons.mp hnodup
    cases h with
    | cons _ h =>
      have hp : p ∈ rest := h.subset (by simp)
      have hq : q ∈ rest := h.subset (by simp)
      rw [List.idxOf_cons_ne rest (ne_of_mem_of_not_mem hp hx).symm,
        List.idxOf_cons_ne rest (ne_of_mem_of_not_mem hq hx).symm]
      exact Nat.succ_lt_succ (ih hrest h)
    | cons_cons _ h =>
      have hq : q ∈ rest := List.singleton_sublist.mp h
      rw [List.idxOf_cons_self, List.idxOf_cons_ne rest (ne_of_mem_of_not_mem hq hx).symm]
      exact Nat.succ_pos _

/-- In a sorted list, the smaller of two elements stands earlier. -/
theorem pair_sublist_of_sorted {l : List Nat} (hsorted : l.Pairwise (· < ·)) (hp : p ∈ l)
    (hq : q ∈ l) (hpq : p < q) : [p, q].Sublist l := by
  induction l with
  | nil => cases hp
  | cons x rest ih =>
    obtain ⟨hx, hrest⟩ := List.pairwise_cons.mp hsorted
    obtain rfl | hp' := List.mem_cons.mp hp
    · obtain rfl | hq' := List.mem_cons.mp hq
      · omega
      · exact Walk.sublist_cons hq'
    · obtain rfl | hq' := List.mem_cons.mp hq
      · have := hx p hp'
        omega
      · exact (ih hrest hp' hq').cons x

namespace Graph

/-- A walk can step from the one node to the other. -/
def WalkStep (g : Graph) (reverse : Bool) (p q : Nat) : Prop := ∃ i, g.Crosses reverse i p q

/-- The steps of a walk lead from its start to the node. -/
def Reached (g : Graph) (reverse : Bool) (q : Nat) : Prop :=
  ∃ r, g.StartsAt reverse r ∧ Relation.ReflTransGen (g.WalkStep reverse) r q

/-- What is crossed to from a reached node is reached. -/
theorem Reached.step {g : Graph} {reverse : Bool} {i : Nat} (h : g.Reached reverse p)
    (hcross : g.Crosses reverse i p q) : g.Reached reverse q := by
  obtain ⟨r, hr, hp⟩ := h
  exact ⟨r, hr, hp.tail ⟨i, hcross⟩⟩

/-- A walk starts at one node. -/
theorem StartsAt.unique {g : Graph} {reverse : Bool} {r s : Nat} (hr : g.StartsAt reverse r)
    (hs : g.StartsAt reverse s) : r = s := by
  have hr := hr.2
  have hs := hs.2
  cases reverse with
  | false => exact Eq.trans (b := 0) hr (Eq.symm hs)
  | true => exact Endpoint.listed.inj (Eq.trans (b := g.exit) (Eq.symm hr) hs)

theorem Ancestor.walkSteps {g : Graph} {reverse : Bool} {tree : List Nat}
    (h : g.Ancestor reverse tree p q) : Relation.ReflTransGen (g.WalkStep reverse) p q := by
  refine Relation.ReflTransGen.mono ?_ p q h
  rintro s t ⟨i, -, hcross⟩
  exact ⟨i, hcross⟩

end Graph

open MicroFlow.Graph

/-! ## Whole walks -/

/-- What a whole walk leaves, with the positions of its tree edges. -/
structure Walk.Complete (g : Graph) (reverse : Bool) (w : Walk) (tree : List Nat) : Prop where
  ids : w.tree.map some = tree.map fun i => g.edges[i]?.map Edge.id
  nodup : w.finished.Nodup
  seen : ∀ p, w.seen.has p = true ↔ p ∈ w.finished
  within : ∀ p ∈ w.finished, p < g.nodes.size
  reached : ∀ p, p ∈ w.finished ↔ g.Reached reverse p
  tree_nodup : tree.Nodup
  tree_ends : ∀ i ∈ tree, ∃ p q, g.Crosses reverse i p q ∧ ¬ g.StartsAt reverse q ∧
    [p, q].Sublist w.finished
  entered : ∀ q ∈ w.finished, ¬ g.StartsAt reverse q → ∃ i ∈ tree, ∃ p, g.Crosses reverse i p q
  entered_once : ∀ i ∈ tree, ∀ j ∈ tree, ∀ p p' q, g.Crosses reverse i p q →
    g.Crosses reverse j p' q → i = j
  settled : ∀ p ∈ w.finished, ∀ i q, g.Crosses reverse i p q →
    [p, q].Sublist w.finished ∨ g.Ancestor reverse tree q p

/-- A walk that has finished whatever it has seen is complete. -/
theorem Walk.Sound.complete {g : Graph} {reverse : Bool} {root : Nat} {w : Walk} {tree : List Nat}
    (h : w.Sound g reverse root tree) (hroot : g.StartsAt reverse root)
    (hfinished : ∀ p, w.seen.has p = true ↔ p ∈ w.finished) : w.Complete g reverse tree where
  ids := h.ids
  nodup := h.nodup
  seen := hfinished
  within p hp := h.within p (h.seen p hp)
  reached p := by
    constructor
    · intro hp
      exact ⟨root, hroot, (h.rooted p (h.seen p hp)).walkSteps⟩
    · rintro ⟨r, hr, hsteps⟩
      obtain rfl := hroot.unique hr
      induction hsteps with
      | refl => exact (hfinished _).mp h.root_seen
      | tail _ hstep ih =>
        obtain ⟨i, hcross⟩ := hstep
        exact (hfinished _).mp (h.settled _ ih i _ hcross).1
  tree_nodup := h.tree_nodup
  tree_ends i hi := by
    obtain ⟨p, q, hcross, hp, -, hne⟩ := h.tree_ends i hi
    refine ⟨p, q, hcross, fun hq => hne (hq.unique hroot), ?_⟩
    exact h.children p ((hfinished p).mp hp) i hi q hcross
  entered q hq hne := h.entered q (h.seen q hq) fun heq => hne (heq ▸ hroot)
  entered_once := h.entered_once
  settled p hp i q hcross := (h.settled p hp i q hcross).2

/-- The walk of a graph without nodes is complete. -/
theorem Walk.complete_empty {g : Graph} {reverse : Bool} (h : g.nodes.size = 0) :
    ({} : Walk).Complete g reverse [] where
  ids := rfl
  nodup := List.nodup_nil
  seen := by simp
  within := by simp
  reached p := by
    refine iff_of_false List.not_mem_nil ?_
    rintro ⟨r, hr, -⟩
    have := hr.1
    omega
  tree_nodup := List.nodup_nil
  tree_ends := by simp
  entered := by simp
  entered_once := by simp
  settled := by simp

/-- The walk of a dense graph succeeds and is complete, if there is a node to start from in the
direction of the walk. -/
theorem Graph.Dense.walk_complete {g : Graph} (h : g.Dense) {reverse : Bool}
    (hexit : reverse = true → 0 < g.nodes.size → ∃ q, q < g.nodes.size ∧ g.exit = .listed q) :
    ∃ w tree, g.walk reverse = .ok w ∧ w.Complete g reverse tree := by
  cases hsize : g.nodes.size with
  | zero =>
    have hempty : g.nodes.isEmpty = true := by rw [Array.isEmpty_iff_size_eq_zero, hsize]
    exact ⟨{}, [], by rw [walk, hempty]; rfl, Walk.complete_empty hsize⟩
  | succ n =>
    have hpos : 0 < g.nodes.size := by omega
    obtain ⟨root, hroot⟩ : ∃ root, g.StartsAt reverse root := by
      cases reverse with
      | false => exact ⟨0, hpos, rfl⟩
      | true =>
        obtain ⟨q, hq, hexit⟩ := hexit rfl hpos
        exact ⟨q, hq, hexit⟩
    obtain ⟨w, tree, hw, hsound, hfinished⟩ := h.walk_eq_ok hroot
    exact ⟨w, tree, hw, hsound.complete hroot hfinished⟩

/-! ## The numbering -/

/-- The one node has a lower rank than the other. -/
def NodeOrder.Before (ord : NodeOrder) (p q : Nat) : Prop :=
  ∃ r s, ord.rank[p]? = some r ∧ ord.rank[q]? = some s ∧ r < s

/-- What a depth-first numbering says about the graph, with the positions of the tree edges. -/
structure NodeOrder.IsReversePostorder (ord : NodeOrder) (g : Graph) (reverse : Bool)
    (tree : List Nat) :
    Prop where
  /-- The order lists every node once, and the ranks are the places in it. -/
  perm : ord.order.Perm (List.range g.nodes.size)
  size : ord.rank.size = g.nodes.size
  inverse : ∀ p r : Nat, ord.rank[p]? = some r ↔ ord.order[r]? = some p
  /-- The nodes that the walk reaches come first. -/
  reached : ∀ p, g.Reached reverse p ↔ ∃ r, ord.rank[p]? = some r ∧ r < ord.reachable
  /-- The others follow by number. -/
  rest : ∀ p q, p < q → q < g.nodes.size → ¬ g.Reached reverse p → ¬ g.Reached reverse q →
    ord.Before p q
  tree_ids : ord.treeEdges.map some = tree.map fun i => g.edges[i]?.map Edge.id
  tree_nodup : tree.Nodup
  /-- A tree edge leads from a node that the walk reaches to one of higher rank, not to the
  start. -/
  tree_ends : ∀ i ∈ tree, ∃ p q, g.Crosses reverse i p q ∧ g.Reached reverse p ∧
    g.Reached reverse q ∧ ¬ g.StartsAt reverse q ∧ ord.Before p q
  /-- One tree edge enters each node that the walk reaches and does not start from. -/
  entered : ∀ q, g.Reached reverse q → ¬ g.StartsAt reverse q →
    ∃! i, i ∈ tree ∧ ∃ p, g.Crosses reverse i p q
  /-- An edge leads to a node of higher rank, or back to an ancestor. -/
  ascends : ∀ i p q, g.Crosses reverse i p q → g.Reached reverse p →
    ord.Before p q ∨ g.Ancestor reverse tree q p
  topological : (∀ p, g.Reached reverse p → ¬ Relation.TransGen (g.WalkStep reverse) p p) →
    ∀ i p q, g.Crosses reverse i p q → g.Reached reverse p → ord.Before p q

namespace Walk

/-- The order that a walk gives to so many nodes. -/
def order (w : Walk) (n : Nat) : List Nat :=
  w.finished ++ (List.range n).filter fun i => !w.seen.has i

/-- The numbering that a walk gives to so many nodes. -/
def numbering (w : Walk) (n : Nat) : NodeOrder where
  rank := ((List.range n).map fun i => (w.order n).idxOf i).toArray
  order := w.order n
  treeEdges := w.tree.reverse
  reachable := w.finished.length

theorem rank_numbering {w : Walk} {n : Nat} (hp : p < n) :
    (w.numbering n).rank[p]? = some ((w.order n).idxOf p) := by
  simp [numbering, hp]

namespace Complete

variable {g : Graph} {reverse : Bool} {w : Walk} {tree : List Nat} (h : w.Complete g reverse tree)

include h

/-- The order lists exactly the nodes. -/
theorem mem_order : p ∈ w.order g.nodes.size ↔ p < g.nodes.size := by
  simp only [order, List.mem_append, List.mem_filter, List.mem_range, Bool.not_eq_true']
  constructor
  · rintro (hp | ⟨hp, -⟩)
    · exact h.within p hp
    · exact hp
  · intro hp
    cases hseen : w.seen.has p with
    | true => exact .inl ((h.seen p).mp hseen)
    | false => exact .inr ⟨hp, rfl⟩

/-- No node is listed twice. -/
theorem nodup_order : (w.order g.nodes.size).Nodup := by
  refine List.nodup_append.mpr ⟨h.nodup, List.nodup_range.filter _, fun p hp q hq hpq => ?_⟩
  rw [List.mem_filter, Bool.not_eq_true', ← hpq, (h.seen p).mpr hp] at hq
  cases hq.2

/-- Places in the order are ranks in the numbering. -/
theorem before (hpq : [p, q].Sublist (w.order g.nodes.size)) :
    (w.numbering g.nodes.size).Before p q := by
  have hp : p < g.nodes.size := h.mem_order.mp (hpq.subset (by simp))
  have hq : q < g.nodes.size := h.mem_order.mp (hpq.subset (by simp))
  exact ⟨_, _, rank_numbering hp, rank_numbering hq, idxOf_lt_of_sublist h.nodup_order hpq⟩

theorem before_of_finished (hpq : [p, q].Sublist w.finished) :
    (w.numbering g.nodes.size).Before p q :=
  h.before (hpq.trans (List.sublist_append_left _ _))

/-- The order is a permutation of the nodes. -/
theorem perm_order : (w.order g.nodes.size).Perm (List.range g.nodes.size) := by
  rw [List.perm_ext_iff_of_nodup h.nodup_order List.nodup_range]
  intro p
  rw [h.mem_order, List.mem_range]

/-- Ranks and order are inverse to each other. -/
theorem rank_eq_some_iff {r : Nat} :
    (w.numbering g.nodes.size).rank[p]? = some r ↔ (w.order g.nodes.size)[r]? = some p := by
  constructor
  · intro hr
    have hp : p < g.nodes.size := by
      by_contra hnot
      simp [numbering, hnot] at hr
    rw [rank_numbering hp] at hr
    cases hr
    exact List.getElem?_idxOf (h.mem_order.mpr hp)
  · intro hr
    obtain ⟨hlt, rfl⟩ := List.getElem?_eq_some_iff.mp hr
    rw [rank_numbering (h.mem_order.mp (List.getElem_mem hlt)), h.nodup_order.idxOf_getElem r hlt]

/-- The nodes that the walk finished have the first ranks. -/
theorem mem_finished_iff : p ∈ w.finished ↔
    ∃ r, (w.numbering g.nodes.size).rank[p]? = some r ∧ r < w.finished.length := by
  constructor
  · intro hp
    refine ⟨_, rank_numbering (h.within p hp), ?_⟩
    rw [order, List.idxOf_append_of_mem hp]
    exact List.idxOf_lt_length_of_mem hp
  · rintro ⟨r, hr, hlt⟩
    rw [h.rank_eq_some_iff, order, List.getElem?_append_left hlt] at hr
    exact List.mem_of_getElem? hr

/-- The nodes that the walk did not reach follow in the order of their slots. -/
theorem before_of_unreached (hpq : p < q) (hq : q < g.nodes.size) (hp' : p ∉ w.finished)
    (hq' : q ∉ w.finished) : (w.numbering g.nodes.size).Before p q := by
  have hmem : ∀ i, i < g.nodes.size → i ∉ w.finished →
      i ∈ (List.range g.nodes.size).filter fun i => !w.seen.has i := by
    intro i hi hnot
    rw [← h.seen i, Bool.not_eq_true] at hnot
    exact List.mem_filter.mpr ⟨List.mem_range.mpr hi, by rw [hnot]; rfl⟩
  have hsorted := pair_sublist_of_sorted (List.pairwise_lt_range.filter fun i => !w.seen.has i)
    (hmem p (by omega) hp') (hmem q hq hq') hpq
  exact h.before (hsorted.trans (List.sublist_append_right _ _))

/-- A crossed edge ascends, unless it leads back to an ancestor. -/
theorem ascends {i : Nat} (hcross : g.Crosses reverse i p q) (hp : g.Reached reverse p) :
    (w.numbering g.nodes.size).Before p q ∨ g.Ancestor reverse tree q p :=
  (h.settled p ((h.reached p).mpr hp) i q hcross).imp_left h.before_of_finished

/-- The numbering of a complete walk is a reverse postorder. -/
theorem numbering : (w.numbering g.nodes.size).IsReversePostorder g reverse tree.reverse where
  perm := h.perm_order
  size := by simp [Walk.numbering]
  inverse _ _ := h.rank_eq_some_iff
  reached p := (h.reached p).symm.trans h.mem_finished_iff
  rest p q hpq hq hp' hq' := by
    rw [← h.reached] at hp' hq'
    exact h.before_of_unreached hpq hq hp' hq'
  tree_ids := by
    show w.tree.reverse.map some = _
    rw [List.map_reverse, List.map_reverse, h.ids]
  tree_nodup := List.nodup_reverse.mpr h.tree_nodup
  tree_ends i hi := by
    obtain ⟨p, q, hcross, hne, hpq⟩ := h.tree_ends i (List.mem_reverse.mp hi)
    have hp : g.Reached reverse p := (h.reached p).mp (hpq.subset (by simp))
    exact ⟨p, q, hcross, hp, hp.step hcross, hne, h.before_of_finished hpq⟩
  entered q hq hne := by
    obtain ⟨i, hi, p, hcross⟩ := h.entered q ((h.reached q).mpr hq) hne
    refine ⟨i, ⟨List.mem_reverse.mpr hi, p, hcross⟩, ?_⟩
    rintro j ⟨hj, p', hcross'⟩
    exact h.entered_once j (List.mem_reverse.mp hj) i hi p' p q hcross' hcross
  ascends i p q hcross hp := (h.ascends hcross hp).imp_right (Ancestor.mono (by simp))
  topological hacyclic i p q hcross hp := by
    -- an edge back to an ancestor would close a cycle
    refine (h.ascends hcross hp).resolve_right fun hback => hacyclic p hp ?_
    exact Relation.TransGen.head' ⟨i, hcross⟩ hback.walkSteps

end Complete

end Walk

namespace Graph

theorem depthFirst_of_walk {g : Graph} {reverse : Bool} {w : Walk} (h : g.walk reverse = .ok w) :
    g.depthFirst reverse = .ok (w.numbering g.nodes.size) := by
  rw [depthFirst, h]
  rfl

/-- Depth-first numbering of a dense graph, from the entry or backward from a listed exit, succeeds
and gives a reverse postorder. -/
theorem depthFirst_reverse_postorder {g : Graph} (h : g.Dense) (reverse : Bool)
    (hexit : reverse = true → 0 < g.nodes.size → ∃ q, q < g.nodes.size ∧ g.exit = .listed q) :
    ∃ ord tree, g.depthFirst reverse = .ok ord ∧ ord.IsReversePostorder g reverse tree := by
  obtain ⟨w, tree, hw, hcomplete⟩ := h.walk_complete hexit
  exact ⟨_, _, depthFirst_of_walk hw, hcomplete.numbering⟩

/-- Nodes 1 and 2 form a ring, which is entered from node 0 and left for node 3; nothing leads to
node 4, and nothing leads to or from node 5.  Edges are numbered as one likes. -/
def knot : Graph where
  nodes := #[some { id := 0, out := [0] }, some { id := 1, out := [1, 4], into := [0, 2, 5] },
    some { id := 2, out := [2, 3], into := [1, 3] }, some { id := 3, into := [4] },
    some { id := 4, out := [5] }, some { id := 5 }]
  edges := #[edge 10 0 1, edge 11 1 2, edge 12 2 1, edge 12 2 2, edge (-1) 1 3, edge 7 4 1]
  vars := []
  exit := .listed 3
where
  edge (id : Int) (p q : Nat) : Edge := ⟨id, .listed p, .listed q, .branch (.truth true)⟩

/-- The knot in both directions: forward, the last two nodes are not reached; backward, only the
last one is not. -/
theorem depthFirst_reverse_postorder_knot :
    knot.Dense ∧ knot.exit = .listed 3 ∧
      (knot.depthFirst false = .ok ⟨#[0, 1, 3, 2, 4, 5], [0, 1, 3, 2, 4, 5], [10, 11, -1], 4⟩ ∧
        ∃ ord tree, knot.depthFirst false = .ok ord ∧ ord.IsReversePostorder knot false tree) ∧
      (knot.depthFirst true = .ok ⟨#[4, 1, 3, 0, 2, 5], [3, 1, 4, 2, 0, 5], [-1, 10, 12, 7], 5⟩ ∧
        ∃ ord tree, knot.depthFirst true = .ok ord ∧ ord.IsReversePostorder knot true tree) := by
  have hdense : knot.Dense := by decide
  exact ⟨hdense, rfl, ⟨by decide +kernel, depthFirst_reverse_postorder hdense false (by simp)⟩,
    by decide +kernel, depthFirst_reverse_postorder hdense true fun _ _ => ⟨3, by decide, rfl⟩⟩

namespace Coherent

variable {g : Graph} (h : g.Coherent)

include h

theorem walk_complete (reverse : Bool) :
    ∃ w tree, g.walk reverse = .ok w ∧ w.Complete g reverse tree :=
  h.dense.walk_complete fun _ _ => h.exit_listed

theorem depthFirst_eq_ok (reverse : Bool) : ∃ ord, g.depthFirst reverse = .ok ord ∧
    ∀ i, i ∈ ord.order ↔ i < g.nodes.size := by
  obtain ⟨w, tree, hw, hcomplete⟩ := h.walk_complete reverse
  exact ⟨_, depthFirst_of_walk hw, fun i => hcomplete.mem_order⟩

/-- The order of a depth-first walk lists every node once, and the rank of a node, which is below
the number of nodes, is its place in the order. -/
theorem depthFirst_ranks (reverse : Bool) : ∃ ord, g.depthFirst reverse = .ok ord ∧
    ord.order.Perm (List.range g.nodes.size) ∧ ord.rank.size = g.nodes.size ∧
    ∀ i, i < g.nodes.size → ∃ r, r < g.nodes.size ∧ ord.rank[i]? = some r ∧
    ord.order[r]? = some i := by
  obtain ⟨w, tree, hw, hcomplete⟩ := h.walk_complete reverse
  have hranks := hcomplete.numbering
  refine ⟨_, depthFirst_of_walk hw, hranks.perm, hranks.size, fun i hi => ?_⟩
  have hrank := Walk.rank_numbering (w := w) hi
  refine ⟨_, ?_, hrank, (hranks.inverse i _).mp hrank⟩
  calc (w.order g.nodes.size).idxOf i
      < (w.order g.nodes.size).length := List.idxOf_lt_length_of_mem (hcomplete.mem_order.mpr hi)
    _ = g.nodes.size := by simpa using hcomplete.perm_order.length_eq

/-- The successors of a node are found, and are what a walk along the edges can step to. -/
theorem successors_eq_ok (hp : p < g.nodes.size) :
    ∃ next, g.successors p = .ok next ∧ ∀ q, q ∈ next ↔ g.WalkStep false p q := by
  obtain ⟨n, hn, hn', -⟩ := h.nodeAt hp
  have hstep : ∀ i ∈ n.out, ∃ q, g.Crosses false i p q ∧ (do
      let e ← g.edgeAt i
      let w ← g.endNode e.target
      g.slotOf w.id : Except Fault Nat) = .ok q := by
    intro i hi
    obtain ⟨e, q, m, he, hq, hm, -, hid, hcross⟩ :=
      h.dense.across_listed hn' (show i ∈ adjacent false n from hi)
    refine ⟨q, hcross, ?_⟩
    have hm' : g.endNode e.target = .ok m := hm
    simp only [he, hm', hid, bind, Except.bind]
    exact slotOf_natCast hq
  obtain ⟨next, hnext⟩ := exists_mapM_eq_ok fun i hi => (hstep i hi).imp fun _ h => h.2
  have hmem := mem_of_mapM_eq_ok hnext
  refine ⟨next, by rw [successors, hn]; exact hnext, fun q => ⟨fun hq => ?_, ?_⟩⟩
  · obtain ⟨i, hi, hiq⟩ := hmem.1 q hq
    obtain ⟨q', hcross, hiq'⟩ := hstep i hi
    rw [hiq] at hiq'
    cases hiq'
    exact ⟨i, hcross⟩
  · rintro ⟨i, hcross⟩
    have hi : i ∈ n.out := by
      obtain ⟨e, he, hs, -⟩ := hcross
      exact (h.out p n hn' i).mpr ⟨e, he, hs⟩
    obtain ⟨q', hq', hiq'⟩ := hmem.2 i hi
    obtain ⟨q'', hcross', hiq''⟩ := hstep i hi
    rw [hiq'] at hiq''
    cases hiq''
    rwa [(hcross.unique hcross').2]

end Coherent

end Graph

end MicroFlow
