import MicroFlow.Flow.Frontier
import MicroFlow.Proofs.Graph.Order

/-!
# What waits on a frontier

The strategies differ in the order in which nodes are taken, and in nothing else: adding a
node adds it to those that wait, and taking one removes it.  `Frontier.nodes` is the view
through which the worklist is described; `Frontier.Sound` says that a node that is marked
as waiting does wait, so that it is not lost when it is not added again.
-/

namespace MicroFlow

namespace Waiting

/-- A node that is added waits. -/
theorem toList_add (id : Nat) (w : Waiting) : (w.add id).toList.Perm (id :: w.toList) := by
  cases w with
  | queue items => exact List.perm_append_singleton id items
  | stack items => exact .refl _
  | passes rank current next =>
    simp only [add, toList, ← List.append_assoc]
    exact List.perm_append_singleton id (current ++ next)

/-- The node that is taken no longer waits. -/
theorem toList_take {w w' : Waiting} {id : Nat} (h : w.take? = some (id, w')) :
    w.toList.Perm (id :: w'.toList) := by
  unfold take? at h
  split at h
  · cases h
  · cases h
    exact .refl _
  · cases h
  · cases h
    exact .refl _
  · cases h
    exact .refl _
  · rename_i rank next
    have hsorted : (byRank rank next).Perm next := List.mergeSort_perm next _
    split at h
    · cases h
    · rename_i first rest heq
      cases h
      rw [heq] at hsorted
      simpa [toList] using hsorted.symm

/-- Nothing is taken only when nothing waits. -/
theorem toList_eq_nil {w : Waiting} (h : w.take? = none) : w.toList = [] := by
  unfold take? at h
  split at h
  · rfl
  · cases h
  · rfl
  · cases h
  · cases h
  · rename_i rank next
    have hsorted : (byRank rank next).Perm next := List.mergeSort_perm next _
    split at h
    · rename_i heq
      rw [heq] at hsorted
      simpa [toList] using hsorted.symm.eq_nil
    · cases h

end Waiting

namespace Frontier

def nodes (f : Frontier) : List Nat := f.waiting.toList

/-- The nodes that are marked as waiting wait. -/
def Sound (f : Frontier) : Prop := ∀ i, f.pending.has i = true → i ∈ f.nodes

/-- A push keeps the marks of waiting nodes right. -/
theorem Sound.push {f : Frontier} (h : f.Sound) (id : Nat) : (f.push id).Sound := by
  unfold Frontier.push
  split
  · exact h
  · intro i hi
    have hperm := Waiting.toList_add id f.waiting
    rw [BitSet.has_insert, Bool.or_eq_true, decide_eq_true_eq] at hi
    refine hperm.mem_iff.mpr ?_
    rcases hi with rfl | hi
    · exact List.mem_cons_self ..
    · exact List.mem_cons_of_mem _ (h i hi)

variable {f : Frontier}

/-- What waits after a push. -/
theorem Sound.mem_push (h : f.Sound) (id i : Nat) :
    i ∈ (f.push id).nodes ↔ i = id ∨ i ∈ f.nodes := by
  unfold Frontier.push
  split
  · rename_i hpending
    constructor
    · exact .inr
    · rintro (rfl | hi)
      · exact h i hpending
      · exact hi
  · rw [← List.mem_cons]
    exact (Waiting.toList_add id f.waiting).mem_iff

theorem length_push_le (f : Frontier) (id : Nat) :
    (f.push id).nodes.length ≤ f.nodes.length + 1 := by
  unfold Frontier.push
  split
  · omega
  · have hlen := (Waiting.toList_add id f.waiting).length_eq
    simp only [nodes, hlen, List.length_cons]
    omega

/-- A pop takes one node away. -/
theorem nodes_pop {f' : Frontier} {id : Nat} (h : f.pop? = some (id, f')) :
    f.nodes.Perm (id :: f'.nodes) ∧ (f.Sound → f'.Sound) := by
  unfold pop? at h
  split at h
  · cases h
  · rename_i i w htake
    cases h
    have hperm := Waiting.toList_take htake
    refine ⟨hperm, fun hsound j hj => ?_⟩
    rw [BitSet.has_erase, Bool.and_eq_true, decide_eq_true_eq] at hj
    rcases List.mem_cons.mp (hperm.mem_iff.mp (hsound j hj.1)) with rfl | hmem
    · exact absurd rfl hj.2
    · exact hmem

theorem nodes_eq_nil (h : f.pop? = none) : f.nodes = [] := by
  unfold pop? at h
  split at h
  · rename_i htake
    exact Waiting.toList_eq_nil htake
  · cases h

/-- Every strategy starts with an empty frontier. -/
theorem ofStrategy_eq_ok {g : Graph} (hg : g.Coherent) (s : Strategy) (reverse : Bool) :
    ∃ f, ofStrategy s g reverse = .ok f ∧ f.Sound ∧ f.nodes = [] := by
  cases s with
  | fifo | lifo => exact ⟨_, rfl, by simp [Sound], rfl⟩
  | roundRobin =>
    obtain ⟨ord, hord, -⟩ := hg.depthFirst_eq_ok reverse
    refine ⟨{ waiting := .passes ord.rank [] [] }, ?_, by simp [Sound], rfl⟩
    simp only [ofStrategy, hord]
    rfl

end Frontier

end MicroFlow
