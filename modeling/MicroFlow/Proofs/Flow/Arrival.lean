import MicroFlow.Proofs.Flow.Frontier

/-!
# Frontiers by their history

Which nodes wait on a frontier, and which one comes next, can be told from what was pushed and
popped, without looking inside.
-/

namespace MicroFlow

/-! ## Ranks tell nodes apart -/

/-- A walk that goes on from another one, and finishes what it sees on the way. -/
structure Walk.Finishes (w w' : Walk) : Prop where
  finished : w.finished ⊆ w'.finished
  seen : ∀ i, w'.seen.has i = true → w.seen.has i = true ∨ i ∈ w'.finished

theorem Walk.Finishes.refl (w : Walk) : w.Finishes w := ⟨List.Subset.refl _, fun _ => .inl⟩

theorem Walk.Finishes.trans {w w' w'' : Walk} (h : w.Finishes w') (k : w'.Finishes w'') :
    w.Finishes w'' where
  finished := List.Subset.trans h.finished k.finished
  seen i hi := (k.seen i hi).elim (fun hi => (h.seen i hi).imp_right (k.finished ·)) .inr

namespace Graph

variable {g : Graph} {reverse : Bool}

theorem toNat_of_slotOf {id : Int} {slot : Nat} (h : g.slotOf id = .ok slot) : id.toNat = slot := by
  rw [slotOf] at h
  split at h <;> cases h
  rfl

/-- Taking an edge, when exploring a node finishes it and what is seen on the way. -/
theorem finishes_of_takeEdge {fuel j : Nat} {w w' : Walk}
    (hexplore : ∀ {v : Node} {w w' : Walk}, g.explore reverse fuel v w = .ok w' →
      w.Finishes w' ∧ v.id.toNat ∈ w'.finished)
    (h : g.takeEdge reverse (g.explore reverse fuel) w j = .ok w') : w.Finishes w' := by
  simp only [takeEdge, bind_eq_ok] at h
  obtain ⟨e, -, n, -, slot, hslot, h⟩ := h
  obtain rfl := toNat_of_slotOf hslot
  split at h
  · cases h
    exact .refl _
  · -- the node behind the edge is new
    obtain ⟨hmore, hnode⟩ := hexplore h
    refine ⟨hmore.finished, fun i hi => ?_⟩
    rcases hmore.seen i hi with hi | hi
    · rw [BitSet.has_insert, Bool.or_eq_true, decide_eq_true_eq] at hi
      rcases hi with rfl | hi
      · exact .inr hnode
      · exact .inl hi
    · exact .inr hi

/-- Exploring a node finishes it, and what was finished stays so. -/
theorem finishes_of_explore (fuel : Nat) : ∀ {v : Node} {w w' : Walk},
    g.explore reverse fuel v w = .ok w' → w.Finishes w' ∧ v.id.toNat ∈ w'.finished := by
  induction fuel with
  | zero => exact fun h => by cases h
  | succ fuel ih =>
    have hedges : ∀ (edges : List Nat) {w w' : Walk},
        edges.foldlM (g.takeEdge reverse (g.explore reverse fuel)) w = .ok w' → w.Finishes w' := by
      intro edges
      induction edges with
      | nil =>
        intro w w' h
        cases h
        exact .refl _
      | cons j edges ihe =>
        intro w w' h
        rw [List.foldlM_cons, bind_eq_ok] at h
        obtain ⟨w₁, htake, h⟩ := h
        exact (finishes_of_takeEdge ih htake).trans (ihe h)
    intro v w w' h
    rw [explore_succ, bind_eq_ok] at h
    obtain ⟨w₁, hfold, h⟩ := h
    cases h
    obtain ⟨hfinished, hseen⟩ := hedges _ hfold
    exact ⟨⟨List.Subset.trans hfinished (List.subset_cons_self ..),
      fun i hi => (hseen i hi).imp_right (List.mem_cons_of_mem _)⟩, List.mem_cons_self⟩

/-- Every node has its place in the order: the walk finishes those that it sees. -/
theorem mem_order_of_walk {w : Walk} (hw : g.walk reverse = .ok w) {p : Nat}
    (hp : p < g.nodes.size) :
    p ∈ w.order g.nodes.size := by
  rw [Walk.order, List.mem_append, List.mem_filter, List.mem_range]
  cases hseen : w.seen.has p with
  | false => exact .inr ⟨hp, rfl⟩
  | true =>
    rw [walk] at hw
    split at hw
    · cases hw
      simp at hseen
    · simp only [bind_eq_ok] at hw
      obtain ⟨root, -, slot, hslot, hw⟩ := hw
      obtain rfl := toNat_of_slotOf hslot
      obtain ⟨hfinishes, hroot⟩ := finishes_of_explore _ hw
      refine .inl ((hfinishes.seen p hseen).elim (fun hp => ?_) id)
      rw [BitSet.has_single, decide_eq_true_eq] at hp
      exact hp ▸ hroot

/-- Of two nodes the one with the lower rank comes first, and no two have the same rank. -/
theorem before_of_rank_le {ord : NodeOrder} (h : g.depthFirst reverse = .ok ord) {i j : Nat}
    (hi : i < g.nodes.size) (hj : j < g.nodes.size) (hne : j ≠ i)
    (hle : ord.rank[i]?.getD 0 ≤ ord.rank[j]?.getD 0) : ord.Before i j := by
  rw [depthFirst, bind_eq_ok] at h
  obtain ⟨w, hw, h⟩ := h
  obtain rfl : w.numbering g.nodes.size = ord := Except.ok.inj h
  refine ⟨_, _, Walk.rank_numbering hi, Walk.rank_numbering hj, ?_⟩
  rw [Walk.rank_numbering hi, Walk.rank_numbering hj, Option.getD_some, Option.getD_some] at hle
  refine Nat.lt_of_le_of_ne hle fun heq => hne ?_
  exact ((List.idxOf_inj (mem_order_of_walk hw hi)).mp heq).symm

end Graph

/-! ## Histories -/

/-- What can be asked of a frontier. -/
inductive FrontierCall where
  | push (id : Nat)
  | pop
deriving DecidableEq, Repr

/-- What happened on a frontier; a pop finds nothing when nothing waits. -/
inductive FrontierEvent where
  | pushed (id : Nat)
  | popped (found : Option Nat)
deriving DecidableEq, Repr

namespace Frontier

/-- The frontier after a call, with what happened added to the history, which has the last event
first. -/
def answer : List FrontierEvent × Frontier → FrontierCall → List FrontierEvent × Frontier
  | (history, f), .push id => (.pushed id :: history, f.push id)
  | (history, f), .pop =>
    match f.pop? with
    | none => (.popped none :: history, f)
    | some (id, f') => (.popped (some id) :: history, f')

/-- The history and the frontier after calls in a row. -/
def run (f : Frontier) (calls : List FrontierCall) : List FrontierEvent × Frontier :=
  calls.foldl answer ([], f)

end Frontier

variable {history : List FrontierEvent} {e : FrontierEvent} {i j : Nat}

/-- The node was pushed and has not been popped since. -/
def Waits (history : List FrontierEvent) (i : Nat) : Prop :=
  ∃ after before, history = after ++ .pushed i :: before ∧ .popped (some i) ∉ after

/-- The first node waited already when the second one began to, and both have waited since. -/
def Earlier (history : List FrontierEvent) (i j : Nat) : Prop :=
  ∃ after before, history = after ++ .pushed j :: before ∧ Waits before i ∧ ¬ Waits before j ∧
    .popped (some i) ∉ after ∧ .popped (some j) ∉ after

/-- What a pop chooses from: what is left of a pass and, when nothing is, all nodes that wait. -/
def choiceOf (pass waits : Nat → Prop) (i : Nat) : Prop := pass i ∨ (∀ k, ¬ pass k) ∧ waits i

/-- What is left of the pass that the last pop belongs to.  Nodes that are pushed are not added to
it. -/
def InPass : List FrontierEvent → Nat → Prop
  | .popped (some id) :: history, i => i ≠ id ∧ choiceOf (InPass history) (Waits history) i
  | _ :: history, i => InPass history i
  | [], _ => False

/-- What the next pop chooses from when nodes are taken in passes. -/
def Choice (history : List FrontierEvent) : Nat → Prop := choiceOf (InPass history) (Waits history)

/-- After an event a node waits if it was pushed by it, or waited and was not popped. -/
theorem waits_cons : Waits (e :: history) i ↔
    e = .pushed i ∨ Waits history i ∧ e ≠ .popped (some i) := by
  constructor
  · rintro ⟨after, before, heq, hafter⟩
    cases after with
    | nil => exact .inl (List.cons.inj heq).1
    | cons x after =>
      obtain ⟨rfl, rfl⟩ := List.cons.inj heq
      rw [List.mem_cons, not_or] at hafter
      exact .inr ⟨⟨after, before, rfl, hafter.2⟩, Ne.symm hafter.1⟩
  · rintro (rfl | ⟨⟨after, before, rfl, hafter⟩, he⟩)
    · exact ⟨[], history, rfl, List.not_mem_nil⟩
    · exact ⟨e :: after, before, rfl, by simp [hafter, he.symm]⟩

/-- Nodes that wait on keep their order. -/
theorem Earlier.cons (h : Earlier history i j) (hi : e ≠ .popped (some i))
    (hj : e ≠ .popped (some j)) : Earlier (e :: history) i j := by
  obtain ⟨after, before, rfl, hbefore, hnew, hafter, hafter'⟩ := h
  exact ⟨e :: after, before, rfl, hbefore, hnew, by simp [hafter, hi.symm], by
    simp [hafter', hj.symm]⟩

theorem earlier_pushed (hi : Waits history i) (hj : ¬ Waits history j) :
    Earlier (.pushed j :: history) i j :=
  ⟨[], history, rfl, hi, hj, List.not_mem_nil, List.not_mem_nil⟩

/-! ## Frontiers that follow a history -/

variable {g : Graph} {reverse : Bool} {s : Strategy}

/-- The order in which a strategy keeps the nodes that wait, by their history. -/
def Waiting.Ordered (g : Graph) (reverse : Bool) (s : Strategy) (history : List FrontierEvent) :
    Waiting → Prop
  | queue items => s = .fifo ∧ items.Pairwise (Earlier history)
  | stack items => s = .lifo ∧ items.Pairwise fun i j => Earlier history j i
  | passes rank current _ =>
    s = .roundRobin ∧ (∃ ord, g.depthFirst reverse = .ok ord ∧ rank = ord.rank) ∧
      (∀ i, i ∈ current ↔ InPass history i) ∧
      current.Pairwise fun i j => rank[i]?.getD 0 ≤ rank[j]?.getD 0

/-- The node comes next under a strategy, by the history. -/
def Strategy.Next (g : Graph) (reverse : Bool) (s : Strategy) (history : List FrontierEvent)
    (i : Nat) :
    Prop :=
  match s with
  | .fifo => ∀ j, Waits history j → j ≠ i → Earlier history i j
  | .lifo => ∀ j, Waits history j → j ≠ i → Earlier history j i
  | .roundRobin => Choice history i ∧ ∃ ord, g.depthFirst reverse = .ok ord ∧
      ∀ j, Choice history j → j ≠ i → ord.Before i j

/-- The order stays when an event pops none of the nodes and leaves the pass as it is. -/
theorem Waiting.Ordered.cons {w : Waiting} (h : w.Ordered g reverse s history)
    (he : ∀ i, e ≠ .popped (some i)) (hpass : InPass (e :: history) = InPass history) :
    w.Ordered g reverse s (e :: history) := by
  cases w with
  | queue items | stack items => exact ⟨h.1, h.2.imp fun hij => hij.cons (he _) (he _)⟩
  | passes rank current next =>
    obtain ⟨hs, hrank, hcurrent, hsorted⟩ := h
    exact ⟨hs, hrank, fun i => by rw [hcurrent, hpass], hsorted⟩

/-- A node that begins to wait is added behind, or in front of, those that wait already. -/
theorem Waiting.Ordered.add {w : Waiting} (h : w.Ordered g reverse s (.pushed j :: history))
    (hwaits : ∀ i ∈ w.toList, Waits history i) (hnew : ¬ Waits history j) :
    (w.add j).Ordered g reverse s (.pushed j :: history) := by
  have hearlier : ∀ i ∈ w.toList, Earlier (.pushed j :: history) i j :=
    fun i hi => earlier_pushed (hwaits i hi) hnew
  cases w with
  | queue items =>
    refine ⟨h.1, List.pairwise_append.mpr ⟨h.2, List.pairwise_singleton _ _, fun i hi k hk => ?_⟩⟩
    exact List.mem_singleton.mp hk ▸ hearlier i hi
  | stack items => exact ⟨h.1, List.pairwise_cons.mpr ⟨hearlier, h.2⟩⟩
  | passes rank current next => exact h

/-- The order of a pass of which the first node is taken, and why that one was. -/
theorem Waiting.ordered_pass {rank : Array Nat} {current next : List Nat} (hs : s = .roundRobin)
    (hrank : ∃ ord, g.depthFirst reverse = .ok ord ∧ rank = ord.rank) (hfresh : i ∉ current)
    (hchoice : ∀ j, j ∈ i :: current ↔ Choice history j)
    (hwithin : ∀ j ∈ i :: current, j < g.nodes.size)
    (hsorted : (i :: current).Pairwise fun i j => rank[i]?.getD 0 ≤ rank[j]?.getD 0) :
    (passes rank current next).Ordered g reverse s (.popped (some i) :: history) ∧
      s.Next g reverse history i := by
  obtain ⟨hleast, hrest⟩ := List.pairwise_cons.mp hsorted
  refine ⟨⟨hs, hrank, fun j => ?_, hrest⟩, ?_⟩
  · show j ∈ current ↔ j ≠ i ∧ Choice history j
    rw [← hchoice, List.mem_cons]
    constructor
    · exact fun hj => ⟨fun heq => hfresh (heq ▸ hj), .inr hj⟩
    · exact fun hj => hj.2.resolve_left hj.1
  · obtain ⟨ord, hord, rfl⟩ := hrank
    subst hs
    refine ⟨(hchoice i).mp List.mem_cons_self, ord, hord, fun j hj hne => ?_⟩
    have hmem := (hchoice j).mpr hj
    exact Graph.before_of_rank_le hord (hwithin i List.mem_cons_self) (hwithin j hmem) hne
      (hleast j ((List.mem_cons.mp hmem).resolve_left hne))

/-- The order of what is left when a node is taken, and why that one was. -/
theorem Waiting.Ordered.take {w w' : Waiting} (h : w.Ordered g reverse s history)
    (htake : w.take? = some (i, w')) (hnodup : w.toList.Nodup)
    (hwaits : ∀ j, j ∈ w.toList ↔ Waits history j) (hwithin : ∀ j ∈ w.toList, j < g.nodes.size) :
    w'.Ordered g reverse s (.popped (some i) :: history) ∧ s.Next g reverse history i := by
  have hperm := toList_take htake
  obtain ⟨hfresh, -⟩ := List.nodup_cons.mp (hperm.nodup_iff.mp hnodup)
  -- what is left waits in the same order as before
  have hstays : ∀ {j k}, Earlier history j k → j ∈ w'.toList → k ∈ w'.toList →
      Earlier (.popped (some i) :: history) j k := by
    intro j k hjk hj hk
    refine hjk.cons ?_ ?_
    · rintro ⟨⟩
      exact hfresh hj
    · rintro ⟨⟩
      exact hfresh hk
  have hothers : ∀ j, Waits history j → j ≠ i → j ∈ w'.toList := fun j hj hne =>
    (List.mem_cons.mp (hperm.mem_iff.mp ((hwaits j).mpr hj))).resolve_left hne
  unfold take? at htake
  split at htake
  · cases htake
  · cases htake
    obtain ⟨rfl, h⟩ := h
    obtain ⟨hfirst, hrest⟩ := List.pairwise_cons.mp h
    exact ⟨⟨rfl, hrest.imp_of_mem fun hj hk hjk => hstays hjk hj hk⟩,
      fun j hj hne => hfirst j (hothers j hj hne)⟩
  · cases htake
  · cases htake
    obtain ⟨rfl, h⟩ := h
    obtain ⟨hfirst, hrest⟩ := List.pairwise_cons.mp h
    exact ⟨⟨rfl, hrest.imp_of_mem fun hj hk hjk => hstays hjk hk hj⟩,
      fun j hj hne => hfirst j (hothers j hj hne)⟩
  · cases htake
    -- in a pass the node of lowest rank comes first
    obtain ⟨hs, hrank, hpass, hsorted⟩ := h
    refine ordered_pass hs hrank (fun hmem => hfresh (List.mem_append_left _ hmem)) (fun j => ?_)
      (fun j hj => hwithin j (List.mem_append_left _ hj)) hsorted
    rw [hpass, Choice, choiceOf, or_iff_left]
    exact fun hnone => hnone.1 i ((hpass i).mp List.mem_cons_self)
  · -- the pass is over, and the next one has all nodes that wait
    rename_i rank next
    obtain ⟨hs, hrank, hpass, -⟩ := h
    have hsorted : (byRank rank next).Pairwise fun i j => rank[i]?.getD 0 ≤ rank[j]?.getD 0 := by
      refine (List.pairwise_mergeSort (fun i j k hij hjk => ?_) (fun i j => ?_) next).imp
        of_decide_eq_true
      · simp only [decide_eq_true_eq] at hij hjk ⊢
        omega
      · simp only [Bool.or_eq_true, decide_eq_true_eq]
        omega
    split at htake
    · cases htake
    · rename_i current hnext
      cases htake
      rw [hnext] at hsorted
      refine ordered_pass hs hrank (fun hmem => hfresh (List.mem_append_left _ hmem)) (fun j => ?_)
        (fun j hj => hwithin j (hperm.mem_iff.mpr (by simpa [toList] using hj))) hsorted
      have hmem : j ∈ i :: current ↔ Waits history j := by
        rw [← hwaits, hperm.mem_iff]
        simp [toList]
      have hover : ∀ k, ¬ InPass history k := fun k hk => List.not_mem_nil ((hpass k).mpr hk)
      rw [hmem, Choice, choiceOf, or_iff_right (hover j), and_iff_right hover]

namespace Frontier

variable {f f' : Frontier}

/-- The frontier holds the nodes that wait, each once and marked, in the order of the strategy. -/
structure Follows (g : Graph) (reverse : Bool) (s : Strategy) (history : List FrontierEvent)
    (f : Frontier) : Prop where
  nodup : f.nodes.Nodup
  pending : ∀ i, f.pending.has i = true ↔ i ∈ f.nodes
  waits : ∀ i, i ∈ f.nodes ↔ Waits history i
  within : ∀ i ∈ f.nodes, i < g.nodes.size
  ordered : f.waiting.Ordered g reverse s history

/-- Nothing waits at the start. -/
theorem follows_of_empty (hnodes : f.nodes = []) (hpending : f.pending = .empty)
    (hordered : f.waiting.Ordered g reverse s []) : f.Follows g reverse s [] where
  nodup := by simp [hnodes]
  pending := by simp [hnodes, hpending]
  waits := by simp [hnodes, Waits]
  within := by simp [hnodes]
  ordered := hordered

/-- A new frontier has no history. -/
theorem follows_ofStrategy (h : ofStrategy s g reverse = .ok f) : f.Follows g reverse s [] := by
  cases s with
  | fifo | lifo =>
    cases h
    exact follows_of_empty rfl rfl ⟨rfl, .nil⟩
  | roundRobin =>
    obtain ⟨ord, hord, h⟩ := bind_eq_ok.mp h
    cases h
    exact follows_of_empty rfl rfl ⟨rfl, ⟨ord, hord, rfl⟩, by simp [InPass], .nil⟩

/-- A push of a node that waits changes nothing. -/
theorem Follows.push (h : f.Follows g reverse s history) {id : Nat} (hid : id < g.nodes.size) :
    (f.push id).Follows g reverse s (.pushed id :: history) := by
  have hordered := h.ordered.cons (e := .pushed id) (by simp) rfl
  have hwaits : ∀ i, Waits (.pushed id :: history) i ↔ i = id ∨ i ∈ f.nodes := by
    intro i
    rw [waits_cons, h.waits, FrontierEvent.pushed.injEq, eq_comm]
    simp
  by_cases hmem : id ∈ f.nodes
  · -- it waits already
    have hpush : f.push id = f := if_pos ((h.pending id).mpr hmem)
    rw [hpush]
    refine ⟨h.nodup, h.pending, fun i => ?_, h.within, hordered⟩
    rw [hwaits, or_iff_right_of_imp]
    rintro rfl
    exact hmem
  · have hpush : f.push id = { waiting := f.waiting.add id, pending := f.pending.insert id } :=
      if_neg (mt (h.pending id).mp hmem)
    rw [hpush]
    have hperm : (f.waiting.add id).toList.Perm (id :: f.nodes) := Waiting.toList_add id f.waiting
    have hnodes : ∀ i, i ∈ (f.waiting.add id).toList ↔ i = id ∨ i ∈ f.nodes :=
      fun i => hperm.mem_iff.trans List.mem_cons
    refine ⟨hperm.nodup_iff.mpr (List.nodup_cons.mpr ⟨hmem, h.nodup⟩),
      fun i => ?_, fun i => ?_, fun i hi => ?_,
      hordered.add (fun i hi => (h.waits i).mp hi) (mt (h.waits id).mpr hmem)⟩
    · rw [BitSet.has_insert, Bool.or_eq_true, decide_eq_true_eq, h.pending, eq_comm]
      exact (hnodes i).symm
    · exact (hnodes i).trans (hwaits i).symm
    · rcases (hnodes i).mp hi with rfl | hi
      · exact hid
      · exact h.within i hi

/-- A pop returns the node that the strategy chooses. -/
theorem Follows.pop (h : f.Follows g reverse s history) (hpop : f.pop? = some (i, f')) :
    f'.Follows g reverse s (.popped (some i) :: history) ∧ s.Next g reverse history i := by
  obtain ⟨hperm, -⟩ := nodes_pop hpop
  obtain ⟨hfresh, hnodup⟩ := List.nodup_cons.mp (hperm.nodup_iff.mp h.nodup)
  have hnodes : ∀ j, j ∈ f'.nodes ↔ j ∈ f.nodes ∧ j ≠ i := by
    intro j
    rw [hperm.mem_iff, List.mem_cons]
    constructor
    · exact fun hj => ⟨.inr hj, fun heq => hfresh (heq ▸ hj)⟩
    · exact fun hj => hj.1.resolve_left hj.2
  rw [pop?] at hpop
  split at hpop
  · cases hpop
  · rename_i id w htake
    cases hpop
    obtain ⟨hordered, hnext⟩ := h.ordered.take htake h.nodup h.waits h.within
    refine ⟨⟨hnodup, fun j => ?_, fun j => ?_, fun j hj =>
      h.within j ((hnodes j).mp hj).1, hordered⟩, hnext⟩
    · rw [hnodes, BitSet.has_erase, Bool.and_eq_true, decide_eq_true_eq, h.pending, ne_comm]
    · rw [hnodes, h.waits, waits_cons]
      simp [eq_comm]

/-- Whatever is called, the frontier follows its history. -/
theorem Follows.run {calls : List FrontierCall} (hcalls : ∀ id, .push id ∈ calls →
    id < g.nodes.size) :
    ∀ {history : List FrontierEvent} {f : Frontier}, f.Follows g reverse s history →
      (calls.foldl answer (history, f)).2.Follows g reverse s
      (calls.foldl answer (history, f)).1 := by
  induction calls with
  | nil => exact id
  | cons call calls ih =>
    intro history f h
    replace ih := @ih fun id hid => hcalls id (List.mem_cons_of_mem _ hid)
    cases call with
    | push id => exact ih (h.push (hcalls id List.mem_cons_self))
    | pop =>
      rw [List.foldl_cons, answer]
      split
      · -- nothing waits, and nothing changes
        exact ih ⟨h.nodup, h.pending, fun i => by simp [waits_cons, h.waits], h.within,
          h.ordered.cons (by simp) rfl⟩
      · rename_i hpop
        exact ih (h.pop hpop).1

/-- **A frontier loses and repeats nothing.**  Whatever nodes of the graph are pushed on a frontier
of any strategy and popped from it, in any order:

* every node is stored at most once, and those that are stored are those that are marked and those
  that were pushed and not popped since;
* a pop finds nothing exactly when there are none, and otherwise removes one of them and no other;
* this is the node that has been waiting longest, the one that came last, or the one of the lowest
  rank in the current pass. -/
theorem frontiers_lose_and_repeat_nothing {f₀ : Frontier} (h₀ : ofStrategy s g reverse = .ok f₀)
    (calls : List FrontierCall) (hcalls : ∀ id, .push id ∈ calls → id < g.nodes.size) :
    ∃ history f, f₀.run calls = (history, f) ∧ f.nodes.Nodup ∧
      (∀ i, i ∈ f.nodes ↔ f.pending.has i = true) ∧
      (∀ i, f.pending.has i = true ↔ Waits history i) ∧
      (f.pop? = none ↔ ∀ i, ¬ Waits history i) ∧
      ∀ i f', f.pop? = some (i, f') → Waits history i ∧ f.nodes.Perm (i :: f'.nodes) ∧
        (∀ j, f'.pending.has j = true ↔ f.pending.has j = true ∧ j ≠ i) ∧
        s.Next g reverse history i := by
  have h := (follows_ofStrategy h₀).run hcalls
  refine ⟨_, _, rfl, h.nodup, fun i => (h.pending i).symm, fun i =>
    (h.pending i).trans (h.waits i), ?_, ?_⟩
  · constructor
    · intro hpop i hi
      simpa [nodes_eq_nil hpop] using (h.waits i).mpr hi
    · intro hnone
      refine Option.eq_none_iff_forall_not_mem.mpr fun ⟨i, f'⟩ hpop => hnone i ((h.waits i).mp ?_)
      exact (nodes_pop hpop).1.mem_iff.mpr List.mem_cons_self
  · intro i f' hpop
    obtain ⟨hafter, hnext⟩ := h.pop hpop
    have hperm := (nodes_pop hpop).1
    refine ⟨(h.waits i).mp (hperm.mem_iff.mpr List.mem_cons_self), hperm, fun j => ?_, hnext⟩
    rw [hafter.pending, hafter.waits, waits_cons, h.pending, h.waits]
    simp [eq_comm]

/-- On `knot`, node 3 comes before node 2 by its rank; node 2 is pushed twice and waits once. -/
theorem frontiers_lose_and_repeat_nothing_knot : ∃ f₀ history f f',
    ofStrategy .roundRobin Graph.knot false = .ok f₀ ∧
      f₀.run [.push 2, .push 3, .push 2] = (history, f) ∧ f.nodes = [2, 3] ∧ f.pop? = some (3, f') ∧
      Strategy.roundRobin.Next Graph.knot false history 3 := by
  have h₀ : ofStrategy .roundRobin Graph.knot false =
      .ok { waiting := .passes #[0, 1, 3, 2, 4, 5] [] [] } := by decide +kernel
  have hsort : Waiting.byRank #[0, 1, 3, 2, 4, 5] [2, 3] = [3, 2] := by
    simp [Waiting.byRank, List.mergeSort, List.MergeSort.Internal.splitInTwo]
  obtain ⟨history, f, hrun, -, -, -, -, hpop⟩ := frontiers_lose_and_repeat_nothing h₀
    [.push 2, .push 3, .push 2] (by simp [Graph.knot])
  obtain rfl : (⟨.passes #[0, 1, 3, 2, 4, 5] [] [2, 3], ⟨12⟩⟩ : Frontier) = f :=
    (Prod.mk.inj hrun).2
  have hthird : pop? ⟨.passes #[0, 1, 3, 2, 4, 5] [] [2, 3], ⟨12⟩⟩ =
      some (3, ⟨.passes #[0, 1, 3, 2, 4, 5] [2] [], ⟨4⟩⟩) := by
    rw [pop?, Waiting.take?, hsort]
    rfl
  exact ⟨_, _, _, _, h₀, hrun, rfl, hthird, (hpop 3 _ hthird).2.2.2⟩

end Frontier

end MicroFlow
