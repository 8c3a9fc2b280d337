import Mathlib.Algebra.BigOperators.Group.Finset.Basic
import Mathlib.Algebra.Order.BigOperators.Group.Finset
import MicroFlow.Dependence.PostDominators
import MicroFlow.Proofs.Graph.Order

/-!
# Narrowing finds the post-dominators

`postDominators` starts with too large sets and removes members until no set changes.  Two
things hold all the time (`Narrowing`): no post-dominator is ever removed, and what a node
would keep when it is visited is part of its set.  So a visit that changes a set makes it
smaller, the sum of all sizes goes down, and the fuel, which exceeds the first sum, is not
used up.  When nothing changes any more, every member of a set is a post-dominator: along any
path to the exit it stays in the sets until it is visited.
-/

namespace MicroFlow

/-- The set of the node at a position. -/
def DominatorSets.setAt (sets : DominatorSets) (v : Nat) : BitSet := sets[v]?.getD .empty

variable {v : Nat}

theorem DominatorSets.setAt_set {sets : DominatorSets} (hv : v < sets.size) (s : BitSet) (u : Nat) :
    DominatorSets.setAt (sets.setIfInBounds v s) u = if u = v then s else sets.setAt u := by
  unfold DominatorSets.setAt
  by_cases huv : v = u
  · subst huv
    simp [hv]
  · rw [Array.getElem?_setIfInBounds_ne huv, if_neg (Ne.symm huv)]

namespace Graph

variable {g : Graph}

/-! ## What the successors have in common -/

theorem dominatorsAt_eq_ok {sets : DominatorSets} (hv : v < sets.size) :
    dominatorsAt sets (v : Int) = .ok (sets.setAt v) := by
  rw [dominatorsAt, if_pos (by omega)]
  simp [DominatorSets.setAt, hv]

/-- Every edge that leaves `v` leads to a node with `x` in its set. -/
def Retained (g : Graph) (sets : DominatorSets) (v x : Nat) : Prop :=
  ∀ e w, g.Leads e v w → (sets.setAt w).has x = true

/-- What a set has in common with the sets of the targets of a list of edges. -/
theorem commonWith_eq_ok (hg : g.Coherent) {sets : DominatorSets}
    (hsize : sets.size = g.nodes.size) (is : List Nat) : ∀ s : BitSet,
    (∀ i ∈ is, i < g.edges.size) →
    ∃ s', g.commonWith sets s is = .ok s' ∧ ∀ x, s'.has x = true ↔
      s.has x = true ∧ ∀ i ∈ is, ∀ e w, g.edges[i]? = some e → e.target = .listed w →
        (sets.setAt w).has x = true := by
  induction is with
  | nil =>
    intro s _
    exact ⟨s, rfl, by simp⟩
  | cons i rest ih =>
    intro s his
    have hi : i < g.edges.size := his i (List.mem_cons_self ..)
    have he : g.edges[i]? = some g.edges[i] := by simp [hi]
    obtain ⟨-, q, -, hq, -, ht⟩ := hg.ends_listed (Array.getElem_mem hi)
    obtain ⟨n, hn, -, hid⟩ := hg.endNode hq
    obtain ⟨s', hs', hspec⟩ := ih (s.inter (sets.setAt q)) fun j hj =>
      his j (List.mem_cons_of_mem _ hj)
    refine ⟨s', ?_, fun x => ?_⟩
    · rw [commonWith, edgeAt_eq_ok.mpr he]
      simp only [bind, Except.bind, ht, hn, hid, dominatorsAt_eq_ok (hsize ▸ hq)]
      exact hs'
    · -- the target of the first edge adds its set to the condition
      rw [hspec, BitSet.has_inter, Bool.and_eq_true]
      constructor
      · rintro ⟨⟨hsx, hqx⟩, hrest⟩
        refine ⟨hsx, fun j hj e w hej hw => ?_⟩
        rcases List.mem_cons.mp hj with rfl | hj
        · rw [he] at hej
          cases hej
          rw [ht] at hw
          cases hw
          exact hqx
        · exact hrest j hj e w hej hw
      · rintro ⟨hsx, hall⟩
        refine ⟨⟨hsx, hall i (List.mem_cons_self ..) _ q he ht⟩, fun j hj => ?_⟩
        exact hall j (List.mem_cons_of_mem _ hj)

/-- What the nodes behind a node have in common. -/
theorem common_eq_ok (hg : g.Coherent) {sets : DominatorSets} (hsize : sets.size = g.nodes.size)
    {first : Nat} {rest : List Nat} {n : Node} (hn : g.nodeAt? v = some n)
    (hout : n.out = first :: rest) :
    ∃ s, g.common sets first rest = .ok s ∧ ∀ x, s.has x = true ↔ g.Retained sets v x := by
  have hlt : ∀ i ∈ n.out, i < g.edges.size := by
    intro i hi
    obtain ⟨e, he, -⟩ := (hg.out v n hn i).mp hi
    exact (Array.getElem?_eq_some_iff.mp he).1
  obtain ⟨e, he, -⟩ := (hg.out v n hn first).mp (by rw [hout]; exact List.mem_cons_self ..)
  obtain ⟨-, q, -, hq, -, ht⟩ := hg.ends_listed (Array.mem_of_getElem? he)
  obtain ⟨m, hm, -, hid⟩ := hg.endNode hq
  obtain ⟨s, hs, hspec⟩ := commonWith_eq_ok hg hsize rest (sets.setAt q) fun i hi =>
    hlt i (by rw [hout]; exact List.mem_cons_of_mem _ hi)
  refine ⟨s, ?_, fun x => ?_⟩
  · rw [common, edgeAt_eq_ok.mpr he]
    simp only [bind, Except.bind, ht, hm, hid, dominatorsAt_eq_ok (hsize ▸ hq)]
    exact hs
  -- the edges that leave the node are the first and the rest
  rw [hspec]
  constructor
  · rintro ⟨hfirst, hrest⟩ f w hf
    obtain ⟨i, hi⟩ := Array.mem_iff_getElem?.mp hf.mem
    have hmem : i ∈ n.out := (hg.out v n hn i).mpr ⟨f, hi, hf.source⟩
    rw [hout] at hmem
    rcases List.mem_cons.mp hmem with rfl | hmem
    · rw [he] at hi
      cases hi
      have hw := hf.target
      rw [ht] at hw
      cases hw
      exact hfirst
    · exact hrest i hmem f w hi hf.target
  · intro hall
    have hmem : ∀ i f w, i ∈ n.out → g.edges[i]? = some f → f.target = .listed w →
        (sets.setAt w).has x = true := by
      intro i f w hi hf hw
      obtain ⟨f', hf', hs⟩ := (hg.out v n hn i).mp hi
      rw [hf] at hf'
      cases hf'
      exact hall f w ⟨Array.mem_of_getElem? hf, hs, hw⟩
    rw [hout] at hmem
    exact ⟨hmem first e q (List.mem_cons_self ..) he ht, fun i hi f w =>
      hmem i f w (List.mem_cons_of_mem _ hi)⟩

/-! ## One visit -/

/-- Sets on the way from all nodes down to the post-dominators. -/
structure Narrowing (g : Graph) (exit : Nat) (sets : DominatorSets) : Prop where
  size : sets.size = g.nodes.size
  atExit : sets.setAt exit = .single exit
  within : ∀ v, (sets.setAt v).Within g.nodes.size
  keeps : ∀ v x, v < g.nodes.size → x < g.nodes.size → g.PostDominates x v →
    (sets.setAt v).has x = true
  descends : ∀ e v w x, g.Leads e v w → v ≠ exit → x = v ∨ g.Retained sets v x →
    (sets.setAt v).has x = true

/-- Every other member of the set of `v` is in the sets of all nodes behind `v`. -/
def Narrowed (g : Graph) (sets : DominatorSets) (v : Nat) : Prop :=
  ∀ x, (sets.setAt v).has x = true → x = v ∨ g.Retained sets v x

/-- The sizes of all sets together. -/
def spreadOf (g : Graph) (sets : DominatorSets) : Nat :=
  ∑ v ∈ Finset.range g.nodes.size, (sets.setAt v).card g.nodes.size

/-- No more than all pairs of nodes. -/
theorem spreadOf_le (sets : DominatorSets) : g.spreadOf sets ≤ g.nodes.size * g.nodes.size := by
  have hsum : g.spreadOf sets ≤ ∑ _v ∈ Finset.range g.nodes.size, g.nodes.size :=
    Finset.sum_le_sum fun v _ => BitSet.card_le _ _
  simpa using hsum

namespace Narrowing

variable {exit : Nat} {sets : DominatorSets}

/-- A node that keeps less than its set holds gets a smaller set. -/
theorem shrink (hg : g.Coherent) (h : g.Narrowing exit sets) {e : Edge} {w : Nat}
    (he : g.Leads e v w) (hne : v ≠ exit)
    {next : BitSet} (hnext : ∀ x, next.has x = true ↔ x = v ∨ g.Retained sets v x)
    (hchange : next ≠ sets.setAt v) :
    g.Narrowing exit (sets.setIfInBounds v next) ∧
      g.spreadOf (sets.setIfInBounds v next) < g.spreadOf sets := by
  have hv : v < g.nodes.size := (he.lt hg).1
  have hset := DominatorSets.setAt_set (h.size ▸ hv) next
  have hsub : ∀ x, next.has x = true → (sets.setAt v).has x = true := fun x hx =>
    h.descends e v w x he hne ((hnext x).mp hx)
  have hle : ∀ u x, (DominatorSets.setAt (sets.setIfInBounds v next) u).has x = true →
      (sets.setAt u).has x = true := by
    intro u x hx
    rw [hset] at hx
    split at hx
    · rename_i huv
      exact huv ▸ hsub x hx
    · exact hx
  have hretained : ∀ u x, g.Retained (sets.setIfInBounds v next) u x → g.Retained sets u x :=
    fun u x hr f w hf => hle w x (hr f w hf)
  refine ⟨⟨?_, ?_, ?_, ?_, ?_⟩, ?_⟩
  · rw [Array.size_setIfInBounds, h.size]
  · rw [hset, if_neg (Ne.symm hne), h.atExit]
  · intro u x hx
    exact h.within u x (hle u x hx)
  · intro u x hu hx hpd
    rw [hset]
    split
    · rename_i huv
      subst huv
      rw [hnext]
      by_cases hxu : x = u
      · exact .inl hxu
      · -- a post-dominator other than the node itself is one of all nodes behind it
        refine .inr fun f w hf => ?_
        exact h.keeps w x (hf.lt hg).2 hx (hpd.forward hf hxu)
    · exact h.keeps u x hu hx hpd
  · intro f u w x hf hue hkeep
    have hkeep' : x = u ∨ g.Retained sets u x := hkeep.imp_right (hretained u x)
    rw [hset]
    split
    · rename_i huv
      subst huv
      exact (hnext x).mpr hkeep'
    · exact h.descends f u w x hf hue hkeep'
  · refine Finset.sum_lt_sum (fun u _ => BitSet.card_mono (BitSet.subset_iff.mpr (hle u)))
      ⟨v, Finset.mem_range.mpr hv, ?_⟩
    rw [hset, if_pos rfl]
    exact BitSet.card_lt_card (BitSet.subset_iff.mpr hsub) (h.within v) hchange

/-- A visit leaves the sets as they are, and the node is settled, or makes a set smaller. -/
theorem visit_cases (hg : g.Coherent) (h : g.Narrowing exit sets)
    (hv : v < g.nodes.size) (changed : Bool) (rest : List Nat) :
    (g.narrowSets exit sets changed (v :: rest) = g.narrowSets exit sets changed rest ∧
      (v ≠ exit → g.Narrowed sets v)) ∨
    ∃ sets', g.narrowSets exit sets changed (v :: rest) = g.narrowSets exit sets' true rest ∧
      g.Narrowing exit sets' ∧ g.spreadOf sets' < g.spreadOf sets := by
  rw [narrowSets]
  by_cases hve : v = exit
  · rw [if_pos hve]
    exact .inl ⟨rfl, fun hne => absurd hve hne⟩
  rw [if_neg hve]
  obtain ⟨n, hn, hn', -⟩ := hg.nodeAt hv
  simp only [hn, bind, Except.bind]
  split
  · rename_i hout
    -- a node without successors keeps everything
    refine .inl ⟨rfl, fun _ x _ => .inr fun e w he => ?_⟩
    obtain ⟨i, hi⟩ := Array.mem_iff_getElem?.mp he.mem
    have hmem : i ∈ n.out := (hg.out v n hn' i).mpr ⟨e, hi, he.source⟩
    rw [hout] at hmem
    cases hmem
  · rename_i first others hout
    obtain ⟨s, hs, hspec⟩ := common_eq_ok hg h.size hn' hout
    obtain ⟨e, he, hes⟩ := (hg.out v n hn' first).mp (by rw [hout]; exact List.mem_cons_self ..)
    have hnext : ∀ x, (s.insert v).has x = true ↔ x = v ∨ g.Retained sets v x := by
      intro x
      rw [BitSet.has_insert, Bool.or_eq_true, decide_eq_true_eq, hspec, eq_comm]
    simp only [hs]
    split
    · rename_i heq
      refine .inl ⟨rfl, fun _ x hx => ?_⟩
      rw [← hnext x, heq]
      exact hx
    · rename_i hne
      obtain ⟨w, -, het⟩ := hg.valid.target e (Array.mem_of_getElem? he)
      obtain ⟨hnarrow, hlt⟩ :=
        h.shrink hg ⟨Array.mem_of_getElem? he, hes, het⟩ hve hnext hne
      exact .inr ⟨_, rfl, hnarrow, hlt⟩

/-! ## Rounds -/

/--
A round of visits succeeds.  When it changes nothing, the visited nodes are settled; when it
changes something, the sets have become smaller.
-/
theorem narrowSets (hg : g.Coherent) (order : List Nat) : ∀ {sets : DominatorSets} (changed : Bool),
    g.Narrowing exit sets → (∀ v ∈ order, v < g.nodes.size) →
    ∃ sets' c, g.narrowSets exit sets changed order = .ok (sets', c) ∧ g.Narrowing exit sets' ∧
      g.spreadOf sets' ≤ g.spreadOf sets ∧
      (c = true → changed = true ∨ g.spreadOf sets' < g.spreadOf sets) ∧
      (c = false → changed = false ∧ sets' = sets ∧ ∀ v ∈ order, v ≠ exit → g.Narrowed sets v) := by
  induction order with
  | nil =>
    intro sets changed h _
    refine ⟨sets, changed, rfl, h, Nat.le_refl _, .inl, fun hc => ⟨hc, rfl, ?_⟩⟩
    intro v hv
    cases hv
  | cons v rest ih =>
    intro sets changed h horder
    have hrest : ∀ u ∈ rest, u < g.nodes.size := fun u hu => horder u (List.mem_cons_of_mem _ hu)
    rcases h.visit_cases hg (horder v (List.mem_cons_self ..)) changed rest with
      ⟨hvisit, hnarrowed⟩ | ⟨smaller, hvisit, hsmaller, hlt⟩
    · obtain ⟨sets', c, hround, h', hle, htrue, hfalse⟩ := ih changed h hrest
      refine ⟨sets', c, hvisit.trans hround, h', hle, htrue, fun hc => ?_⟩
      obtain ⟨hch, heq, hall⟩ := hfalse hc
      refine ⟨hch, heq, fun u hu => ?_⟩
      rcases List.mem_cons.mp hu with rfl | hu
      · exact hnarrowed
      · exact hall u hu
    · -- a set that shrinks sets the flag for the whole round
      obtain ⟨sets', c, hround, h', hle, -, hfalse⟩ := ih true hsmaller hrest
      refine ⟨sets', c, hvisit.trans hround, h', by omega, fun _ => .inr (by omega), fun hc => ?_⟩
      have := (hfalse hc).1
      cases this

/-- Rounds end with every visited node settled when the fuel exceeds the sizes of all sets. -/
theorem narrowRounds (hg : g.Coherent) {order : List Nat} (horder : ∀ v ∈ order, v < g.nodes.size)
    (fuel : Nat) : ∀ {sets : DominatorSets}, g.Narrowing exit sets → g.spreadOf sets < fuel →
    ∃ sets', g.narrowRounds exit order fuel sets = .ok sets' ∧ g.Narrowing exit sets' ∧
      ∀ v ∈ order, v ≠ exit → g.Narrowed sets' v := by
  induction fuel with
  | zero =>
    intro sets _ hfuel
    cases hfuel
  | succ fuel ih =>
    intro sets h hfuel
    obtain ⟨sets', c, hround, h', -, htrue, hfalse⟩ := narrowSets hg order false h horder
    cases c with
    | false =>
      obtain ⟨-, rfl, hall⟩ := hfalse rfl
      refine ⟨sets', ?_, h', hall⟩
      rw [Graph.narrowRounds, hround]
      rfl
    | true =>
      have hlt : g.spreadOf sets' < g.spreadOf sets := by
        rcases htrue rfl with hc | hlt
        · cases hc
        · exact hlt
      obtain ⟨last, hlast, hnarrowing, hall⟩ := ih h' (by omega)
      refine ⟨last, ?_, hnarrowing, hall⟩
      rw [Graph.narrowRounds, hround]
      exact hlast

end Narrowing

/-! ## The result -/

/-- The sets to start with: all nodes everywhere, but the exit alone at the exit. -/
def widest (g : Graph) (exit : Nat) : DominatorSets :=
  (Array.replicate g.nodes.size (BitSet.below g.nodes.size)).setIfInBounds exit (.single exit)

/-- At the start, every set but that of the exit is full. -/
theorem setAt_widest {exit : Nat} (hlt : exit < g.nodes.size) (v : Nat) :
    (g.widest exit).setAt v = if v = exit then .single exit
      else if v < g.nodes.size then .below g.nodes.size else .empty := by
  rw [widest, DominatorSets.setAt_set (by simpa using hlt)]
  simp only [DominatorSets.setAt, Array.getElem?_replicate]
  split
  · rfl
  · split <;> rfl

/-- So it holds all post-dominators. -/
theorem Narrowing.start (hg : g.Coherent) {exit : Nat} (hexit : g.exit = .listed exit)
    (hlt : exit < g.nodes.size) : g.Narrowing exit (g.widest exit) := by
  have hwithin : ∀ v, ((g.widest exit).setAt v).Within g.nodes.size := by
    intro v x hx
    rw [setAt_widest hlt] at hx
    split at hx
    · rw [BitSet.has_single, decide_eq_true_eq] at hx
      omega
    · split at hx
      · simpa using hx
      · simp at hx
  have hall : ∀ v x, v ≠ exit → v < g.nodes.size → x < g.nodes.size →
      ((g.widest exit).setAt v).has x = true := by
    intro v x hne hv hx
    rw [setAt_widest hlt, if_neg hne, if_pos hv]
    simpa using hx
  refine ⟨by simp [widest], by rw [setAt_widest hlt, if_pos rfl], hwithin, ?_, ?_⟩
  · intro v x hv hx hpd
    by_cases hve : v = exit
    · subst hve
      -- the empty path visits the exit only
      rcases hpd v [] hexit (.nil v) with rfl | ⟨e, he, -⟩
      · rw [setAt_widest hlt, if_pos rfl]
        simp
      · cases he
    · exact hall v x hve hv hx
  · intro e v w x he hve hkeep
    have hv : v < g.nodes.size := (he.lt hg).1
    refine hall v x hve hv ?_
    rcases hkeep with rfl | hretained
    · exact hv
    · exact hwithin w x (hretained e w he)

/-- Where every node is settled, a member of a set is visited on the way to the exit. -/
theorem Narrowing.visits (hg : g.Coherent) {exit : Nat} {sets : DominatorSets}
    (h : g.Narrowing exit sets)
    (hall : ∀ v, v < g.nodes.size → v ≠ exit → g.Narrowed sets v) {x : Nat}
    {es : List Edge} (hpath : g.Path v es exit) (hx : (sets.setAt v).has x = true) :
    Visits es exit x := by
  have hlast : (sets.setAt exit).has x = true → x = exit := by
    intro hx
    rw [h.atExit, BitSet.has_single, decide_eq_true_eq] at hx
    exact hx.symm
  induction hpath with
  | nil => exact .inl (hlast hx)
  | @cons e es v w exit he _ ih =>
    by_cases hve : v = exit
    · subst hve
      exact .inl (hlast hx)
    rcases hall v (he.lt hg).1 hve x hx with rfl | hretained
    · exact .inr ⟨e, List.mem_cons_self .., he.source⟩
    · exact (ih h hall (hretained e w he) hlast).cons e

/-- The computation ends in sets that no visit changes. -/
theorem postDominators_narrowing (hg : g.Coherent) : ∃ exit sets, g.exit = .listed exit ∧
    g.postDominators = .ok sets ∧ g.Narrowing exit sets ∧
    ∀ v, v < g.nodes.size → v ≠ exit → g.Narrowed sets v := by
  obtain ⟨exit, n, hlt, hstart, -, hid, -, hexit⟩ := hg.start true
  obtain ⟨ord, hord, hmem⟩ := hg.depthFirst_eq_ok true
  have hspread := g.spreadOf_le (g.widest exit)
  obtain ⟨sets, hsets, h, hall⟩ := Narrowing.narrowRounds hg (fun v hv => (hmem v).mp hv)
    (g.nodes.size * g.nodes.size + 1) (Narrowing.start hg (hexit rfl) hlt) (by omega)
  refine ⟨exit, sets, hexit rfl, ?_, h, fun v hv => hall v ((hmem v).mpr hv)⟩
  have hnode : g.exitNode = .ok n := hstart
  simp only [postDominators, hnode, hid, slotOf_natCast hlt, hord, bind, Except.bind]
  exact hsets

/-- The sets of post-dominators are found, and they hold the post-dominators and nothing else. -/
theorem postDominators_eq_ok (hg : g.Coherent) : ∃ sets, g.postDominators = .ok sets ∧
    sets.size = g.nodes.size ∧ ∀ v x, v < g.nodes.size → x < g.nodes.size →
      ((sets.setAt v).has x = true ↔ g.PostDominates x v) := by
  obtain ⟨exit, sets, hexit, hsets, h, hall⟩ := postDominators_narrowing hg
  refine ⟨sets, hsets, h.size, fun v x hv hx => ⟨fun hhas t es ht hpath => ?_, h.keeps v x hv hx⟩⟩
  rw [hexit] at ht
  cases ht
  exact h.visits hg hall hpath hhas

end Graph

end MicroFlow
