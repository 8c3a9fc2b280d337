import Mathlib.Data.List.Count
import Mathlib.Data.List.Nodup
import Mathlib.Logic.Relation
import MicroFlow.Graph.Stats
import MicroFlow.Proofs.BitSet

/-!
# Strongly connected components

The figures of a graph count the components of more than one node.  A component is read off two
sets: the nodes that can be reached from each node are found by closing a set under steps, in rounds
that stop when nothing changes.
-/

namespace MicroFlow.Graph

open Relation (ReflTransGen)

/-- The steps lead from the one node to the other at once. -/
def StepsTo (steps : List (List Nat)) (i j : Nat) : Prop := j ∈ steps[i]?.getD []

/-- No step leads out of the nodes that have steps. -/
def Inward (steps : List (List Nat)) : Prop := ∀ next ∈ steps, ∀ j ∈ next, j < steps.length

variable {steps : List (List Nat)} {i j : Nat} {s : BitSet} {nodes : List (List Nat × Nat)}
  {P : Nat → Prop}

theorem StepsTo.lt (h : Inward steps) (hij : StepsTo steps i j) : j < steps.length := by
  unfold StepsTo at hij
  cases hi : steps[i]? with
  | none => simp [hi] at hij
  | some next =>
    rw [hi] at hij
    exact h next (List.mem_of_getElem? hi) j hij

/-! ## Rounds -/

/-- Inserting a list of nodes. -/
theorem has_foldl_insert (next : List Nat) (s : BitSet) (j : Nat) :
    (next.foldl (fun acc j => acc.insert j) s).has j = true ↔ s.has j = true ∨ j ∈ next := by
  induction next generalizing s with
  | nil => simp
  | cons k next ih =>
    rw [List.foldl_cons, ih, BitSet.has_insert, Bool.or_eq_true, decide_eq_true_eq, List.mem_cons,
      eq_comm, or_assoc, or_left_comm]

/-- The steps from one node are taken when the node is a member. -/
def spreadOne (s : BitSet) (x : List Nat × Nat) : BitSet :=
  if s.has x.2 then x.1.foldl (fun acc j => acc.insert j) s else s

theorem has_spreadOne {x : List Nat × Nat} :
    (spreadOne s x).has j = true ↔ s.has j = true ∨ s.has x.2 = true ∧ j ∈ x.1 := by
  unfold spreadOne
  split
  · rename_i hx
    rw [has_foldl_insert]
    simp [hx]
  · rename_i hx
    simp [hx]

theorem has_foldl_spreadOne (h : s.has j = true) : (nodes.foldl spreadOne s).has j = true := by
  induction nodes generalizing s with
  | nil => exact h
  | cons x nodes ih => exact ih (has_spreadOne.mpr (.inl h))

/-- A node in the set passes on its successors. -/
theorem has_foldl_spreadOne_of_mem {next : List Nat}
    (hmem : (next, i) ∈ nodes) (hi : s.has i = true) (hj : j ∈ next) :
    (nodes.foldl spreadOne s).has j = true := by
  induction nodes generalizing s with
  | nil => cases hmem
  | cons x nodes ih =>
    rw [List.foldl_cons]
    rcases List.mem_cons.mp hmem with rfl | hmem
    · exact has_foldl_spreadOne (has_spreadOne.mpr (.inr ⟨hi, hj⟩))
    · exact ih hmem (has_spreadOne.mpr (.inl hi))

/-- Nothing else is passed on. -/
theorem foldl_spreadOne_induction (hstep : ∀ next i, (next, i) ∈ nodes → P i → ∀ j ∈ next, P j)
    (hs : ∀ i, s.has i = true → P i) : ∀ j, (nodes.foldl spreadOne s).has j = true → P j := by
  induction nodes generalizing s with
  | nil => exact hs
  | cons x nodes ih =>
    refine ih (fun next i hmem => hstep next i (List.mem_cons_of_mem _ hmem)) fun j hj => ?_
    rcases has_spreadOne.mp hj with hj | ⟨hx, hj⟩
    · exact hs j hj
    · exact hstep x.1 x.2 (List.mem_cons_self ..) (hs x.2 hx) j hj

theorem mem_zipIdx_iff {next : List Nat} : (next, i) ∈ steps.zipIdx ↔ steps[i]? = some next :=
  List.mk_mem_zipIdx_iff_getElem?

/-- A round adds all successors. -/
theorem has_spread_of_stepsTo (hi : s.has i = true) (hij : StepsTo steps i j) :
    (spread steps s).has j = true := by
  unfold StepsTo at hij
  cases hnext : steps[i]? with
  | none => simp [hnext] at hij
  | some next =>
    rw [hnext] at hij
    exact has_foldl_spreadOne_of_mem (mem_zipIdx_iff.mpr hnext) hi hij

/-- A round keeps what is kept along steps. -/
theorem spread_induction (hstep : ∀ i j, P i → StepsTo steps i j → P j)
    (hs : ∀ i, s.has i = true → P i) : ∀ j, (spread steps s).has j = true → P j := by
  refine foldl_spreadOne_induction (fun next i hmem hi j hj => hstep i j hi ?_) hs
  rw [StepsTo, mem_zipIdx_iff.mp hmem]
  exact hj

/-- So do many rounds. -/
theorem closure_induction (hstep : ∀ i j, P i → StepsTo steps i j → P j)
    (rounds : Nat) (hs : ∀ i, s.has i = true → P i) :
    ∀ j, (closure steps rounds s).has j = true → P j := by
  induction rounds generalizing s with
  | zero => exact hs
  | succ rounds ih =>
    rw [closure]
    split
    · exact hs
    · exact ih (spread_induction hstep hs)

/-- With a round for every node that is not a member yet, closing a set leaves a closed set. -/
theorem closure_closed (h : Inward steps) (rounds : Nat) (hs : s.Within steps.length)
    (hrounds : steps.length ≤ s.card steps.length + rounds) :
    (∀ i, s.has i = true → (closure steps rounds s).has i = true) ∧
      ∀ i j, (closure steps rounds s).has i = true → StepsTo steps i j →
        (closure steps rounds s).has j = true := by
  induction rounds generalizing s with
  | zero =>
    -- the set counts as much as there are nodes, so it has them all
    refine ⟨fun i hi => hi, fun i j _ hij => ?_⟩
    have hall : s = BitSet.below steps.length := by
      by_contra hne
      have hlt : s.card steps.length < (BitSet.below steps.length).card steps.length :=
        BitSet.card_lt_card (BitSet.subset_iff.mpr fun i hi => by simpa using hs i hi)
          (fun i hi => by simpa using hi) hne
      have hle := BitSet.card_le steps.length (BitSet.below steps.length)
      omega
    rw [closure, hall]
    simpa using hij.lt h
  | succ rounds ih =>
    have hwithin : (spread steps s).Within steps.length :=
      spread_induction (fun i j _ hij => hij.lt h) hs
    have hsub : s.subset (spread steps s) = true :=
      BitSet.subset_iff.mpr fun i hi => has_foldl_spreadOne hi
    rw [closure]
    split
    · rename_i hsame
      have heq : spread steps s = s := by simpa using hsame
      refine ⟨fun i hi => hi, fun i j hi hij => ?_⟩
      rw [← heq]
      exact has_spread_of_stepsTo hi hij
    · rename_i hchanged
      have hne : s ≠ spread steps s := fun heq => hchanged (beq_iff_eq.mpr heq.symm)
      have hgrows := BitSet.card_lt_card hsub hwithin hne
      obtain ⟨hkeeps, hclosed⟩ := ih hwithin (by omega)
      exact ⟨fun i hi => hkeeps i (has_foldl_spreadOne hi), hclosed⟩

/-- As many rounds as there are nodes are enough, so the sets are right. -/
theorem closure_has_iff (h : Inward steps) (hi : i < steps.length) :
    (closure steps steps.length (.single i)).has j = true ↔ ReflTransGen (StepsTo steps) i j := by
  have hsingle : ∀ k, (BitSet.single i).has k = true ↔ i = k := by simp
  constructor
  · refine closure_induction (fun k l hk hkl => hk.tail hkl) _ (fun k hk => ?_) j
    rw [(hsingle k).mp hk]
  · have hwithin : (BitSet.single i).Within steps.length := by
      intro k hk
      rwa [← (hsingle k).mp hk]
    obtain ⟨hkeeps, hclosed⟩ := closure_closed h steps.length hwithin (by omega)
    intro hreach
    induction hreach with
    | refl => exact hkeeps i ((hsingle i).mpr rfl)
    | tail _ hlast ih => exact hclosed _ _ ih hlast

/-! ## Components -/

/-- Each of two nodes can be reached from the other. -/
def Mutual (steps : List (List Nat)) (i j : Nat) : Prop :=
  ReflTransGen (StepsTo steps) i j ∧ ReflTransGen (StepsTo steps) j i

theorem reachSets_getElem? (hi : i < steps.length) :
    (reachSets steps)[i]?.getD .empty = closure steps steps.length (.single i) := by
  simp [reachSets, hi]

/-- Two nodes are in one component when each can be reached from the other. -/
theorem mem_component (h : Inward steps) (hi : i < steps.length) :
    j ∈ component (reachSets steps) i ↔ j < steps.length ∧ Mutual steps i j := by
  have hlen : (reachSets steps).length = steps.length := by simp [reachSets]
  rw [component, List.mem_filter, List.mem_range, hlen, and_congr_right_iff]
  intro hj
  rw [reachSets_getElem? hi, reachSets_getElem? hj, Bool.and_eq_true, closure_has_iff h hi,
    closure_has_iff h hj]
  rfl

theorem nodup_component (reach : List BitSet) (i : Nat) : (component reach i).Nodup :=
  List.nodup_range.filter _

/-- The node stands for a component of more than one node. -/
def heads (reach : List BitSet) (i : Nat) : Bool :=
  (component reach i).head? == some i && 1 < (component reach i).length

/-- A class of nodes that make up a component is counted once, at its first node. -/
theorem countP_heads {reach : List BitSet} {c : List Nat} (hc : c.Nodup)
    (hclass : ∀ i ∈ c, ∀ j, j ∈ component reach i ↔ j ∈ c) :
    c.countP (heads reach) = if 1 < c.length then 1 else 0 := by
  have hlength : ∀ i ∈ c, (component reach i).length = c.length := by
    intro i hi
    refine List.Perm.length_eq ?_
    rw [List.perm_ext_iff_of_nodup (nodup_component reach i) hc]
    exact hclass i hi
  split
  · rename_i hlong
    -- members have the same component, and one of them is its first node
    obtain ⟨i, hi⟩ : ∃ i, i ∈ c := List.exists_mem_of_length_pos (by omega)
    have hsame : ∀ k ∈ c, component reach k = component reach i := by
      intro k hk
      refine List.filter_congr fun j hj => ?_
      have hiff : j ∈ component reach k ↔ j ∈ component reach i :=
        (hclass k hk j).trans (hclass i hi j).symm
      rw [component, component, List.mem_filter, List.mem_filter, and_congr_right_iff] at hiff
      exact Bool.eq_iff_iff.mpr (hiff hj)
    obtain ⟨m, hm⟩ : ∃ m, (component reach i).head? = some m := by
      have hpos : 0 < (component reach i).length := by
        rw [hlength i hi]
        omega
      exact ⟨_, List.head?_eq_some_head (List.ne_nil_of_length_pos hpos)⟩
    have hmem : m ∈ c := (hclass i hi m).mp (List.mem_of_head? hm)
    have hcount : c.countP (heads reach) = c.countP (· == m) := by
      refine List.countP_congr fun k hk => ?_
      rw [heads, hsame k hk, hm, hlength i hi, decide_eq_true hlong, Bool.and_true, beq_iff_eq,
        beq_iff_eq, Option.some.injEq, eq_comm]
    rw [hcount]
    exact List.count_eq_one_of_mem hc hmem
  · rename_i hshort
    rw [List.countP_eq_zero]
    intro i hi hhead
    simp only [heads, Bool.and_eq_true, decide_eq_true_eq] at hhead
    rw [hlength i hi] at hhead
    exact hshort hhead.2

/-- Where the nodes are divided into classes of nodes that can be reached from each other, the
classes of more than one node are counted. -/
theorem nestCount_eq (h : Inward steps) {classes : List (List Nat)}
    (hperm : classes.flatten.Perm (List.range steps.length))
    (hclass : ∀ c ∈ classes, ∀ i ∈ c, ∀ j, Mutual steps i j ↔ j ∈ c) :
    nestCount steps = classes.countP (1 < ·.length) := by
  have hnodup : classes.flatten.Nodup := hperm.nodup_iff.mpr List.nodup_range
  have hlt : ∀ c ∈ classes, ∀ i ∈ c, i < steps.length := by
    intro c hc i hi
    exact List.mem_range.mp (hperm.mem_iff.mp (List.mem_flatten.mpr ⟨c, hc, hi⟩))
  -- a class of more than one member has one head, the others have none
  have hcounts : ∀ c ∈ classes, c.countP (heads (reachSets steps)) =
      if 1 < c.length then 1 else 0 := by
    intro c hc
    refine countP_heads ((List.nodup_flatten.mp hnodup).1 c hc) fun i hi j => ?_
    rw [mem_component h (hlt c hc i hi), hclass c hc i hi j, and_iff_right_iff_imp]
    exact hlt c hc j
  have hsum : ∀ cs : List (List Nat), (∀ c ∈ cs, c ∈ classes) →
      cs.flatten.countP (heads (reachSets steps)) = cs.countP (1 < ·.length) := by
    intro cs hcs
    induction cs with
    | nil => rfl
    | cons c cs ih =>
      rw [List.flatten_cons, List.countP_append, hcounts c (hcs c (List.mem_cons_self ..)),
        ih fun d hd => hcs d (List.mem_cons_of_mem _ hd), List.countP_cons, Nat.add_comm]
      simp
  calc nestCount steps
      = (List.range steps.length).countP (heads (reachSets steps)) := by
        rw [List.countP_eq_length_filter]
        rfl
    _ = classes.flatten.countP (heads (reachSets steps)) := (hperm.countP_eq _).symm
    _ = classes.countP (1 < ·.length) := hsum classes fun _ hc => hc

end MicroFlow.Graph
