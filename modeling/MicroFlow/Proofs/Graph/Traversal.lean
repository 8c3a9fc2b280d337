import Mathlib.Logic.Relation
import MicroFlow.Graph.Traversal
import MicroFlow.Proofs.BitSet
import MicroFlow.Proofs.Graph.Linked

/-!
# Depth-first walks

A walk in either direction comes to an end on every graph whose nodes carry their positions and
list their own edges (`Graph.Dense`): no reference leads nowhere, and the fuel is enough, because a
step down sees a node that was not seen before.

What a walk has done so far is told by its tree edges, here by their positions, and by the nodes
that it has seen and finished (`Walk.Sound`).  The nodes that are seen and not finished are those on
the way from the start to the node that is being explored (`Walk.Stands`); so an edge that is looked
at leads to a new node, which is finished on return, to a finished node, or back to a node on that
way.
-/

namespace MicroFlow

variable {i p q : Nat} {n : Node}

namespace Graph

/-! ## Steps of a walk -/

/-- The end that a walk takes an edge from. -/
def behind (reverse : Bool) (e : Edge) : Endpoint := if reverse then e.target else e.source

/-- A walk can take the edge at a position from one node to another. -/
def Crosses (g : Graph) (reverse : Bool) (i p q : Nat) : Prop :=
  ∃ e, g.edges[i]? = some e ∧ behind reverse e = .listed p ∧ across reverse e = .listed q

/-- An edge is crossed from one node to one node. -/
theorem Crosses.unique {g : Graph} {reverse : Bool} {p' q' : Nat} (h : g.Crosses reverse i p q)
    (h' : g.Crosses reverse i p' q') : p = p' ∧ q = q' := by
  obtain ⟨e, he, hp, hq⟩ := h
  obtain ⟨e', he', hp', hq'⟩ := h'
  rw [he] at he'
  cases he'
  rw [hp] at hp'
  rw [hq] at hq'
  cases hp'
  cases hq'
  exact ⟨rfl, rfl⟩

/-- A walk starts at the node. -/
def StartsAt (g : Graph) (reverse : Bool) (r : Nat) : Prop :=
  r < g.nodes.size ∧ if reverse then g.exit = .listed r else r = 0

/-- The edges of a list, as steps from node to node. -/
def StepIn (g : Graph) (reverse : Bool) (tree : List Nat) (p q : Nat) : Prop :=
  ∃ i ∈ tree, g.Crosses reverse i p q

/-- The tree edges lead from the first node to the second, which can be the same. -/
abbrev Ancestor (g : Graph) (reverse : Bool) (tree : List Nat) : Nat → Nat → Prop :=
  Relation.ReflTransGen (g.StepIn reverse tree)

/-- Ancestors remain ancestors as the tree grows. -/
theorem Ancestor.mono {g : Graph} {reverse : Bool} {tree tree' : List Nat} (h : tree ⊆ tree')
    {p q : Nat}
    (hpq : g.Ancestor reverse tree p q) : g.Ancestor reverse tree' p q := by
  refine Relation.ReflTransGen.mono ?_ p q hpq
  rintro s t ⟨i, hi, hcross⟩
  exact ⟨i, h hi, hcross⟩

namespace Dense

variable {g : Graph} (h : g.Dense)

include h

/-- The edges that a walk looks at in a node are those that it can cross from there. -/
theorem mem_adjacent {reverse : Bool} (hn : g.nodeAt? p = some n) :
    i ∈ adjacent reverse n ↔ ∃ q, q < g.nodes.size ∧ g.Crosses reverse i p q := by
  have hlisted : i ∈ adjacent reverse n ↔ ∃ e, g.edges[i]? = some e ∧
    behind reverse e = .listed p := by
    cases reverse with
    | false => exact h.out p n hn i
    | true => exact h.into p n hn i
  rw [hlisted]
  constructor
  · rintro ⟨e, he, hp⟩
    obtain ⟨⟨s, hs, hsource⟩, t, ht, htarget⟩ := h.ends e (Array.mem_of_getElem? he)
    cases reverse with
    | false => exact ⟨t, ht, e, he, hp, htarget⟩
    | true => exact ⟨s, hs, e, he, hp, hsource⟩
  · rintro ⟨q, -, e, he, hp, -⟩
    exact ⟨e, he, hp⟩

/-- Every such edge leads to a node that is found under its identifier. -/
theorem across_listed {reverse : Bool} (hn : g.nodeAt? p = some n) (hi : i ∈ adjacent reverse n) :
    ∃ e q m, g.edgeAt i = .ok e ∧ q < g.nodes.size ∧ g.endNode (across reverse e) = .ok m ∧
      g.nodeAt? q = some m ∧ m.id = q ∧ g.Crosses reverse i p q := by
  obtain ⟨q, hq, e, he, hp, hacross⟩ := (h.mem_adjacent hn).mp hi
  obtain ⟨m, hm, hid⟩ := h.node q hq
  refine ⟨e, q, m, edgeAt_eq_ok.mpr he, hq, ?_, hm, hid, e, he, hp, hacross⟩
  rw [hacross]
  exact nodeAt_eq_ok.mpr hm

end Dense

end Graph

open MicroFlow.Graph

/-! ## What a walk has done -/

/--
What holds of a walk from `root` at any time, with the positions of its tree edges:

* every tree edge leads from a seen node to a seen node other than the start, and to each of these
  leads exactly one;
* the edges of a finished node lead to seen nodes, and each of them to one that was finished before,
  or back to an ancestor.
-/
structure Walk.Sound (g : Graph) (reverse : Bool) (root : Nat) (w : Walk) (tree : List Nat) :
    Prop where
  ids : w.tree.map some = tree.map fun i => g.edges[i]?.map Edge.id
  within : w.seen.Within g.nodes.size
  nodup : w.finished.Nodup
  seen : ∀ p ∈ w.finished, w.seen.has p = true
  root_seen : w.seen.has root = true
  tree_nodup : tree.Nodup
  tree_ends : ∀ i ∈ tree, ∃ p q, g.Crosses reverse i p q ∧ w.seen.has p = true ∧
    w.seen.has q = true ∧ q ≠ root
  entered : ∀ q, w.seen.has q = true → q ≠ root → ∃ i ∈ tree, ∃ p, g.Crosses reverse i p q
  entered_once : ∀ i ∈ tree, ∀ j ∈ tree, ∀ p p' q, g.Crosses reverse i p q →
    g.Crosses reverse j p' q → i = j
  rooted : ∀ q, w.seen.has q = true → g.Ancestor reverse tree root q
  settled : ∀ p ∈ w.finished, ∀ i q, g.Crosses reverse i p q →
    w.seen.has q = true ∧ ([p, q].Sublist w.finished ∨ g.Ancestor reverse tree q p)
  children : ∀ p ∈ w.finished, ∀ i ∈ tree, ∀ q, g.Crosses reverse i p q → [p, q].Sublist w.finished

/-- The walk stands at a node: the nodes that are not finished lead to it, and its children are
finished. -/
structure Walk.Stands (g : Graph) (reverse : Bool) (v : Nat) (w : Walk) (tree : List Nat) :
    Prop where
  seen : w.seen.has v = true
  unfinished : v ∉ w.finished
  ancestors : ∀ p, w.seen.has p = true → p ∉ w.finished → g.Ancestor reverse tree p v
  children : ∀ i ∈ tree, ∀ q, g.Crosses reverse i v q → q ∈ w.finished

/-- A walk that goes on from another one, while the nodes with the property `Open` are left
unfinished. New tree edges come from `v` or from nodes that were not seen. -/
structure Walk.Grows (g : Graph) (reverse : Bool) (v : Nat) (Open : Nat → Prop) (w w' : Walk)
    (tree tree' : List Nat) : Prop where
  seen : ∀ p, w.seen.has p = true → w'.seen.has p = true
  finished : w.finished.IsSuffix w'.finished
  grown : tree ⊆ tree'
  left : ∀ p, w'.seen.has p = true ∧ p ∉ w'.finished ↔ Open p
  fresh : ∀ i ∈ tree', i ∈ tree ∨ ∀ p q, g.Crosses reverse i p q → p = v ∨ w.seen.has p = false

/-- The node is seen and not finished. -/
def Walk.IsOpen (w : Walk) (p : Nat) : Prop := w.seen.has p = true ∧ p ∉ w.finished

namespace Walk

variable {g : Graph} {reverse : Bool} {root v : Nat} {w w' w'' : Walk}
  {tree tree' tree'' : List Nat}

theorem Grows.refl : w.Grows g reverse v w.IsOpen w tree tree where
  seen _ hp := hp
  finished := List.suffix_rfl
  grown := List.Subset.refl _
  left _ := Iff.rfl
  fresh _ hi := .inl hi

/-- Growth in two steps; what is open is judged at the start. -/
theorem Grows.trans {Open : Nat → Prop} (h : w.Grows g reverse v Open w' tree tree')
    (k : w'.Grows g reverse v w'.IsOpen w'' tree' tree'') :
    w.Grows g reverse v Open w'' tree tree'' where
  seen p hp := k.seen p (h.seen p hp)
  finished := h.finished.trans k.finished
  grown := List.Subset.trans h.grown k.grown
  left p := (k.left p).trans (h.left p)
  fresh i hi := by
    obtain hi | hnew := k.fresh i hi
    · exact h.fresh i hi
    · refine .inr fun p q hcross => (hnew p q hcross).imp_right fun hp => ?_
      cases hseen : w.seen.has p with
      | false => rfl
      | true => rw [h.seen p hseen] at hp; exact hp

theorem sublist_cons {l : List Nat} (h : p ∈ l) : [v, p].Sublist (v :: l) :=
  (List.singleton_sublist.mpr h).cons_cons v

theorem ne_of_seen (hp : w.seen.has p = true) (hnew : w.seen.has q = false) : p ≠ q := by
  rintro rfl
  rw [hp] at hnew
  cases hnew

/-- An edge of the tree does not touch a node that is not seen yet. -/
theorem Sound.ends_ne (h : w.Sound g reverse root tree) {s t : Nat} (hnew : w.seen.has q = false)
    (hi : i ∈ tree) (hcross : g.Crosses reverse i s t) : s ≠ q ∧ t ≠ q := by
  obtain ⟨s', t', hcross', hs, ht, -⟩ := h.tree_ends i hi
  obtain ⟨rfl, rfl⟩ := hcross.unique hcross'
  exact ⟨ne_of_seen hs hnew, ne_of_seen ht hnew⟩

/-- The walk that has entered a node along an edge. -/
def enter (w : Walk) (q : Nat) (e : Edge) : Walk :=
  { w with seen := w.seen.insert q, tree := e.id :: w.tree }

variable {e : Edge}

theorem seen_enter : (w.enter q e).seen.has p = true ↔ q = p ∨ w.seen.has p = true := by
  simp [enter]

/-- A node that was not seen before is entered along an edge from where the walk stands. -/
theorem Sound.enter (h : w.Sound g reverse root tree) (hv : w.Stands g reverse v tree) {i q : Nat}
    {e : Edge} (he : g.edges[i]? = some e) (hq : q < g.nodes.size)
    (hcross : g.Crosses reverse i v q)
    (hnew : w.seen.has q = false) : (w.enter q e).Sound g reverse root (i :: tree) where
  ids := by
    show some e.id :: w.tree.map some = _
    rw [List.map_cons, he, h.ids]
    rfl
  within := h.within.insert hq
  nodup := h.nodup
  seen p hp := seen_enter.mpr (.inr (h.seen p hp))
  root_seen := seen_enter.mpr (.inr h.root_seen)
  tree_nodup := List.nodup_cons.mpr ⟨fun hi => (h.ends_ne hnew hi hcross).2 rfl, h.tree_nodup⟩
  tree_ends := by
    refine List.forall_mem_cons.mpr ⟨⟨v, q, hcross, ?_, ?_, ?_⟩, fun j hj => ?_⟩
    · exact seen_enter.mpr (.inr hv.seen)
    · exact seen_enter.mpr (.inl rfl)
    · exact (ne_of_seen h.root_seen hnew).symm
    · obtain ⟨s, t, hj, hs, ht, hne⟩ := h.tree_ends j hj
      exact ⟨s, t, hj, seen_enter.mpr (.inr hs), seen_enter.mpr (.inr ht), hne⟩
  entered p hp hne := by
    obtain rfl | hp := seen_enter.mp hp
    · exact ⟨i, List.mem_cons_self, v, hcross⟩
    · obtain ⟨j, hj, s, hcross'⟩ := h.entered p hp hne
      exact ⟨j, List.mem_cons_of_mem _ hj, s, hcross'⟩
  entered_once j hj k hk s s' p hjp hkp := by
    obtain hj | hj := List.mem_cons.mp hj <;> obtain hk | hk := List.mem_cons.mp hk
    · rw [hj, hk]
    · exact absurd (hcross.unique (hj ▸ hjp)).2.symm (h.ends_ne hnew hk hkp).2
    · exact absurd (hcross.unique (hk ▸ hkp)).2.symm (h.ends_ne hnew hj hjp).2
    · exact h.entered_once j hj k hk s s' p hjp hkp
  rooted p hp := by
    obtain rfl | hp := seen_enter.mp hp
    · exact ((h.rooted v hv.seen).mono (List.subset_cons_self i tree)).tail
        ⟨i, List.mem_cons_self, hcross⟩
    · exact (h.rooted p hp).mono (List.subset_cons_self i tree)
  settled p hp j t hj := by
    obtain ⟨ht, hback⟩ := h.settled p hp j t hj
    exact ⟨seen_enter.mpr (.inr ht), hback.imp_right (Ancestor.mono (List.subset_cons_self i tree))⟩
  children p hp j hj t hj' := by
    obtain rfl | hj := List.mem_cons.mp hj
    · -- the edge comes from where the walk stands, which is not finished
      obtain ⟨rfl, -⟩ := hj'.unique hcross
      exact absurd hp hv.unfinished
    · exact h.children p hp j hj t hj'

/-- The walk then stands at that node, and its ancestors are those of the node before. -/
theorem Stands.enter (hv : w.Stands g reverse v tree) (h : w.Sound g reverse root tree) {i q : Nat}
    {e : Edge} (hcross : g.Crosses reverse i v q) (hnew : w.seen.has q = false) :
    (w.enter q e).Stands g reverse q (i :: tree) where
  seen := seen_enter.mpr (.inl rfl)
  unfinished hq := ne_of_seen (h.seen q hq) hnew rfl
  ancestors p hp hnot := by
    obtain rfl | hp := seen_enter.mp hp
    · exact .refl
    · exact ((hv.ancestors p hp hnot).mono (List.subset_cons_self i tree)).tail
        ⟨i, List.mem_cons_self, hcross⟩
  children j hj p hj' := by
    obtain rfl | hj := List.mem_cons.mp hj
    · exact absurd (hj'.unique hcross).1.symm (ne_of_seen hv.seen hnew)
    · exact absurd rfl (h.ends_ne hnew hj hj').1

/-- The node where the walk stands is finished, when all its edges have been looked at. -/
theorem Sound.finish (h : w.Sound g reverse root tree) (hv : w.Stands g reverse v tree)
    (hedges : ∀ i q, g.Crosses reverse i v q →
      w.seen.has q = true ∧ (q ∈ w.finished ∨ g.Ancestor reverse tree q v)) :
    ({ w with finished := v :: w.finished } : Walk).Sound g reverse root tree where
  ids := h.ids
  within := h.within
  nodup := List.nodup_cons.mpr ⟨hv.unfinished, h.nodup⟩
  seen := List.forall_mem_cons.mpr ⟨hv.seen, h.seen⟩
  root_seen := h.root_seen
  tree_nodup := h.tree_nodup
  tree_ends := h.tree_ends
  entered := h.entered
  entered_once := h.entered_once
  rooted := h.rooted
  settled p hp i q hcross := by
    obtain rfl | hp := List.mem_cons.mp hp
    · obtain ⟨hseen, hq⟩ := hedges i q hcross
      exact ⟨hseen, hq.imp_left sublist_cons⟩
    · obtain ⟨hseen, hq⟩ := h.settled p hp i q hcross
      exact ⟨hseen, hq.imp_left (.cons v)⟩
  children p hp i hi q hcross := by
    obtain rfl | hp := List.mem_cons.mp hp
    · exact sublist_cons (hv.children i hi q hcross)
    · exact (h.children p hp i hi q hcross).cons v

/-- Finishing the node where the walk stands closes it and nothing else. -/
theorem Grows.finish (h : w.Grows g reverse v w.IsOpen w' tree tree') :
    w.Grows g reverse v (fun p => w.IsOpen p ∧ p ≠ v)
      { w' with finished := v :: w'.finished } tree tree' where
  seen := h.seen
  finished := h.finished.trans (List.suffix_cons v w'.finished)
  grown := h.grown
  left p := by
    rw [← h.left p, List.mem_cons, not_or, and_assoc]
    exact and_congr_right fun _ => and_comm
  fresh := h.fresh

/-- What exploring a new node does to the walk that stands at the node it was entered from. -/
theorem Grows.entered (hcross : g.Crosses reverse i v q)
    (hnew : w.seen.has q = false) (h : (w.enter q e).Grows g reverse q
      (fun p => (w.enter q e).IsOpen p ∧ p ≠ q) w' (i :: tree) tree') :
    w.Grows g reverse v w.IsOpen w' tree tree' where
  seen p hp := h.seen p (seen_enter.mpr (.inr hp))
  finished := h.finished
  grown := List.Subset.trans (List.subset_cons_self i tree) h.grown
  left p := by
    rw [h.left p, IsOpen, IsOpen, seen_enter]
    constructor
    · rintro ⟨⟨rfl | hp, hnot⟩, hpq⟩
      · exact absurd rfl hpq
      · exact ⟨hp, hnot⟩
    · rintro ⟨hp, hnot⟩
      exact ⟨⟨.inr hp, hnot⟩, ne_of_seen hp hnew⟩
  fresh j hj := by
    obtain hj | hj := h.fresh j hj
    · obtain rfl | hj := List.mem_cons.mp hj
      · exact .inr fun s t hj' => .inl (hj'.unique hcross).1
      · exact .inl hj
    · refine .inr fun s t hj' => .inr ?_
      obtain rfl | hs := hj s t hj'
      · exact hnew
      · rw [← Bool.not_eq_true, seen_enter, not_or] at hs
        exact Bool.eq_false_of_not_eq_true hs.2

/-- After a new node has been explored, the walk stands where it stood. -/
theorem Grows.stands (hv : w.Stands g reverse v tree)
    (hcross : g.Crosses reverse i v q) (hnew : w.seen.has q = false)
    (h : (w.enter q e).Grows g reverse q (fun p => (w.enter q e).IsOpen p ∧ p ≠ q) w' (i :: tree)
      tree')
    (hfinished : q ∈ w'.finished) : w'.Stands g reverse v tree' := by
  have hgrows := h.entered hcross hnew
  refine ⟨hgrows.seen v hv.seen, ((hgrows.left v).mpr ⟨hv.seen, hv.unfinished⟩).2, ?_, ?_⟩
  · intro p hp hnot
    obtain ⟨hp, hnot⟩ := (hgrows.left p).mp ⟨hp, hnot⟩
    exact (hv.ancestors p hp hnot).mono hgrows.grown
  · -- a tree edge from here was there before, or is the one just taken
    intro j hj p hj'
    obtain hj | hj := h.fresh j hj
    · obtain rfl | hj := List.mem_cons.mp hj
      · exact (hcross.unique hj').2 ▸ hfinished
      · exact hgrows.finished.subset (hv.children j hj p hj')
    · obtain hvq | hunseen := hj v p hj'
      · exact absurd hvq (ne_of_seen hv.seen hnew)
      · rw [← Bool.not_eq_true, seen_enter, not_or] at hunseen
        exact absurd hv.seen hunseen.2

theorem Grows.finishes {Open : Nat → Prop}
    (h : w.Grows g reverse v (fun p => Open p ∧ p ≠ v) w' tree tree')
    (hv : w.seen.has v = true) : v ∈ w'.finished := by
  by_contra hnot
  exact ((h.left v).mp ⟨h.seen v hv, hnot⟩).2 rfl

end Walk

/-! ## Exploring -/

namespace Graph

theorem explore_succ (g : Graph) (reverse : Bool) (fuel : Nat) (v : Node) (w : Walk) :
    g.explore reverse (fuel + 1) v w = do
      let walk ← (adjacent reverse v).foldlM (g.takeEdge reverse (g.explore reverse fuel)) w
      return { walk with finished := v.id.toNat :: walk.finished } := rfl

/-- Exploring a node where a walk stands: it succeeds if the fuel and the seen nodes together are
more than all nodes, and finishes the node and whatever it sees. -/
def Explores (g : Graph) (reverse : Bool) (fuel : Nat) : Prop :=
  ∀ (root p : Nat) (n : Node) (w : Walk) (tree : List Nat), g.nodeAt? p = some n → n.id = p →
    w.Sound g reverse root tree → w.Stands g reverse p tree →
    g.nodes.size < fuel + w.seen.card g.nodes.size →
    ∃ w' tree', g.explore reverse fuel n w = .ok w' ∧ w'.Sound g reverse root tree' ∧
      w.Grows g reverse p (fun q => w.IsOpen q ∧ q ≠ p) w' tree tree'

namespace Dense

variable {g : Graph} (h : g.Dense) {reverse : Bool}

include h

/-- One edge of the node that is being explored. -/
theorem takeEdge_eq_ok {fuel root : Nat} {w : Walk} {tree : List Nat}
    (hfuel : g.Explores reverse fuel) (hn : g.nodeAt? p = some n) (hi : i ∈ adjacent reverse n)
    (hw : w.Sound g reverse root tree) (hp : w.Stands g reverse p tree)
    (henough : g.nodes.size < fuel + 1 + w.seen.card g.nodes.size) :
    ∃ w' tree', g.takeEdge reverse (g.explore reverse fuel) w i = .ok w' ∧
    w'.Sound g reverse root tree' ∧
      w'.Stands g reverse p tree' ∧ w.Grows g reverse p w.IsOpen w' tree tree' ∧
      ∀ q, g.Crosses reverse i p q →
        w'.seen.has q = true ∧ (q ∈ w'.finished ∨ g.Ancestor reverse tree' q p) := by
  obtain ⟨e, q, m, he, hq, hm, hm', hmid, hcross⟩ := h.across_listed hn hi
  have hedge : g.edges[i]? = some e := edgeAt_eq_ok.mp he
  have htake : g.takeEdge reverse (g.explore reverse fuel) w i = if w.seen.has q then .ok w else
      g.explore reverse fuel m (w.enter q e) := by
    rw [takeEdge, he]
    show (g.endNode (across reverse e) >>= _) = _
    rw [hm]
    show (g.slotOf m.id >>= _) = _
    rw [hmid, slotOf_natCast hq]
    rfl
  cases hseen : w.seen.has q with
  | true =>
    -- a node that is seen is finished or open, and what is open is an ancestor
    refine ⟨w, tree, by rw [htake, hseen]; rfl, hw, hp, .refl, fun q' hq' => ?_⟩
    obtain ⟨-, rfl⟩ := hcross.unique hq'
    refine ⟨hseen, ?_⟩
    by_cases hfinished : q ∈ w.finished
    · exact .inl hfinished
    · exact .inr (hp.ancestors q hseen hfinished)
  | false =>
    -- a new node is explored, and finished when the walk comes back
    have hcard : w.seen.card g.nodes.size < (w.enter q e).seen.card g.nodes.size :=
      BitSet.card_insert hq hseen
    obtain ⟨w', tree', hexplore, hsound, hgrows⟩ := hfuel root q m _ _ hm' hmid
      (hw.enter hp hedge hq hcross hseen) (hp.enter hw hcross hseen) (by omega)
    have hfinished : q ∈ w'.finished := hgrows.finishes (Walk.seen_enter.mpr (.inl rfl))
    refine ⟨w', tree', by rw [htake, hseen]; exact hexplore, hsound,
      hgrows.stands hp hcross hseen hfinished, hgrows.entered hcross hseen, fun q' hq' => ?_⟩
    obtain ⟨-, rfl⟩ := hcross.unique hq'
    exact ⟨hsound.seen q hfinished, .inl hfinished⟩

/-- The edges of the node that is being explored, one after the other. -/
theorem takeEdges_eq_ok {fuel root : Nat} (hfuel : g.Explores reverse fuel)
    (hn : g.nodeAt? p = some n) (edges : List Nat) (hedges : ∀ i ∈ edges, i ∈ adjacent reverse n) :
    ∀ (w : Walk) (tree : List Nat), w.Sound g reverse root tree → w.Stands g reverse p tree →
    g.nodes.size < fuel + 1 + w.seen.card g.nodes.size →
    ∃ w' tree', edges.foldlM (g.takeEdge reverse (g.explore reverse fuel)) w = .ok w' ∧
    w'.Sound g reverse root tree' ∧
      w'.Stands g reverse p tree' ∧ w.Grows g reverse p w.IsOpen w' tree tree' ∧
      ∀ i ∈ edges, ∀ q, g.Crosses reverse i p q →
        w'.seen.has q = true ∧ (q ∈ w'.finished ∨ g.Ancestor reverse tree' q p) := by
  induction edges with
  | nil => exact fun w tree hw hp _ => ⟨w, tree, rfl, hw, hp, .refl, by simp⟩
  | cons i rest ih =>
    intro w tree hw hp henough
    obtain ⟨w₁, tree₁, htake, hw₁, hp₁, hgrows₁, hsettled⟩ :=
      h.takeEdge_eq_ok hfuel hn (hedges i List.mem_cons_self) hw hp henough
    have hcard := BitSet.card_mono (n := g.nodes.size) (BitSet.subset_iff.mpr hgrows₁.seen)
    obtain ⟨w₂, tree₂, hrest, hw₂, hp₂, hgrows₂, hsettled₂⟩ :=
      ih (fun j hj => hedges j (List.mem_cons_of_mem _ hj)) w₁ tree₁ hw₁ hp₁ (by omega)
    refine ⟨w₂, tree₂, ?_, hw₂, hp₂, hgrows₁.trans hgrows₂,
      List.forall_mem_cons.mpr ⟨?_, hsettled₂⟩⟩
    · rw [List.foldlM_cons, htake]
      exact hrest
    · intro q hcross
      obtain ⟨hseen, hq⟩ := hsettled q hcross
      refine ⟨hgrows₂.seen q hseen, hq.imp ?_ (Ancestor.mono hgrows₂.grown)⟩
      exact fun hq => hgrows₂.finished.subset hq

/-- Exploring a node, by induction on the fuel and on its edges. -/
theorem explore_eq_ok (fuel : Nat) : g.Explores reverse fuel := by
  induction fuel with
  | zero =>
    intro root p n w tree _ _ _ _ henough
    have := w.seen.card_le g.nodes.size
    omega
  | succ fuel ih =>
    intro root p n w tree hn hid hw hp henough
    obtain ⟨w', tree', hfold, hw', hp', hgrows, hsettled⟩ :=
      h.takeEdges_eq_ok ih hn (adjacent reverse n) (fun _ hi => hi) w tree hw hp henough
    have hedges : ∀ i q, g.Crosses reverse i p q →
        w'.seen.has q = true ∧ (q ∈ w'.finished ∨ g.Ancestor reverse tree' q p) := by
      intro i q hcross
      refine hsettled i ((h.mem_adjacent hn).mpr ⟨q, ?_, hcross⟩) q hcross
      obtain ⟨e, he, -, hq⟩ := hcross
      obtain ⟨⟨s, hs, hsource⟩, t, ht, htarget⟩ := h.ends e (Array.mem_of_getElem? he)
      cases reverse with
      | false => cases htarget.symm.trans hq; exact ht
      | true => cases hsource.symm.trans hq; exact hs
    refine ⟨_, tree', ?_, hw'.finish hp' hedges, hgrows.finish⟩
    rw [explore_succ, hfold, hid]
    rfl

/-- The walk from the start succeeds and finishes whatever it sees; in a graph without nodes that is
nothing. -/
theorem walk_eq_ok {root : Nat} (hroot : g.StartsAt reverse root) : ∃ w tree,
    g.walk reverse = .ok w ∧ w.Sound g reverse root tree ∧
      ∀ p, w.seen.has p = true ↔ p ∈ w.finished := by
  obtain ⟨n, hn, hid⟩ := h.node root hroot.1
  have hstart : g.start reverse = .ok n := by
    have hroot := hroot.2
    cases reverse with
    | false =>
      obtain rfl : root = 0 := hroot
      exact nodeAt_eq_ok.mpr hn
    | true =>
      have hexit : g.exit = .listed root := hroot
      show g.endNode g.exit = _
      rw [hexit]
      exact nodeAt_eq_ok.mpr hn
  have hsingle : ∀ p, (BitSet.single root).has p = true ↔ root = p := by simp
  -- before the first step, only the root is seen
  have hsound : ({ seen := BitSet.single root } : Walk).Sound g reverse root [] :=
    { ids := rfl
      within := fun p hp => (hsingle p).mp hp ▸ hroot.1
      nodup := List.nodup_nil
      seen := by simp
      root_seen := by simp
      tree_nodup := List.nodup_nil
      tree_ends := by simp
      entered := fun p hp hne => absurd ((hsingle p).mp hp).symm hne
      entered_once := by simp
      rooted := fun p hp => (hsingle p).mp hp ▸ .refl
      settled := by simp
      children := by simp }
  have hstands : ({ seen := BitSet.single root } : Walk).Stands g reverse root [] :=
    ⟨by simp, by simp, fun p hp _ => (hsingle p).mp hp ▸ .refl, by simp⟩
  -- the fuel lasts, since one node is seen already
  have hcard : 0 < (BitSet.single root).card g.nodes.size := by
    have hinsert := BitSet.card_insert (s := .empty) hroot.1 (by simp)
    have heq : BitSet.empty.insert root = BitSet.single root := BitSet.ext (by simp)
    rw [heq] at hinsert
    omega
  obtain ⟨w, tree, hexplore, hw, hgrows⟩ :=
    h.explore_eq_ok g.nodes.size root root n _ [] hn hid hsound
    hstands (by simp only; omega)
  have hempty : g.nodes.isEmpty = false := by
    simpa [Array.isEmpty_iff_size_eq_zero] using Nat.ne_of_gt (Nat.zero_lt_of_lt hroot.1)
  refine ⟨w, tree, ?_, hw, fun p => ⟨fun hp => ?_, hw.seen p⟩⟩
  · rw [walk, hempty]
    show (g.start reverse >>= _) = _
    rw [hstart]
    show (g.slotOf n.id >>= _) = _
    rw [hid, slotOf_natCast hroot.1]
    exact hexplore
  · by_contra hnot
    obtain ⟨⟨hsingle', -⟩, hne⟩ := (hgrows.left p).mp ⟨hp, hnot⟩
    exact hne ((hsingle p).mp hsingle').symm

end Dense

end Graph

end MicroFlow
