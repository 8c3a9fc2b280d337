import Mathlib.Data.Finset.Card
import MicroFlow.BitSet

/-!
# How many members a set has

`BitSet.card n s` counts the members of `s` below `n`.  It bounds everything that goes on
until a set stops growing or shrinking: a larger set of numbers below `n` counts more
(`card_lt_card`), and no set counts more than `n` (`card_le`).
-/

namespace MicroFlow.BitSet

/-- Every member is below `n`. -/
def Within (n : Nat) (s : BitSet) : Prop := ∀ i, s.has i = true → i < n

/-- The number of members below `n`. -/
def card (n : Nat) (s : BitSet) : Nat := ((Finset.range n).filter fun i => s.has i = true).card

theorem card_le (n : Nat) (s : BitSet) : s.card n ≤ n := by
  have h := Finset.card_filter_le (Finset.range n) fun i => s.has i = true
  rwa [Finset.card_range] at h

variable {n i : Nat} {s t : BitSet}

theorem card_mono (h : s.subset t = true) : s.card n ≤ t.card n := by
  rw [subset_iff] at h
  refine Finset.card_le_card fun i hi => ?_
  rw [Finset.mem_filter] at hi ⊢
  exact ⟨hi.1, h i hi.2⟩

/-- A new member counts. -/
theorem card_lt_of_mem (h : s.subset t = true) (hi : i < n)
    (hs : s.has i = false) (ht : t.has i = true) : s.card n < t.card n := by
  rw [subset_iff] at h
  refine Finset.card_lt_card (Finset.ssubset_iff_of_subset ?_ |>.mpr ⟨i, ?_, ?_⟩)
  · intro j hj
    rw [Finset.mem_filter] at hj ⊢
    exact ⟨hj.1, h j hj.2⟩
  · simp [hi, ht]
  · simp [hs]

/-- Of two sets of numbers below `n`, a larger one counts more. -/
theorem card_lt_card (h : s.subset t = true) (ht : t.Within n)
    (hne : s ≠ t) : s.card n < t.card n := by
  obtain ⟨i, hi⟩ : ∃ i, s.has i ≠ t.has i := by
    by_contra hall
    push Not at hall
    exact hne (ext hall)
  have hsub := subset_iff.mp h i
  have hs : s.has i = false := by
    cases hsi : s.has i with
    | false => rfl
    | true => exact absurd (hsi.trans (hsub hsi).symm) hi
  have hti : t.has i = true := by
    cases hti : t.has i with
    | false => exact absurd (hs.trans hti.symm) hi
    | true => rfl
  exact card_lt_of_mem h (ht i hti) hs hti

theorem subset_insert (i : Nat) (s : BitSet) : s.subset (s.insert i) = true := by
  rw [subset_iff]
  intro j hj
  simp [hj]

/-- A new member below `n` counts. -/
theorem card_insert (hi : i < n) (h : s.has i = false) :
    s.card n < (s.insert i).card n := card_lt_of_mem (subset_insert i s) hi h (by simp)

theorem Within.insert {n i : Nat} {s : BitSet} (h : s.Within n) (hi : i < n) :
    (s.insert i).Within n := by
  intro j hj
  rw [has_insert, Bool.or_eq_true, decide_eq_true_eq] at hj
  rcases hj with rfl | hj
  · exact hi
  · exact h j hj

/-- The members are listed. -/
theorem mem_members : i ∈ s.members ↔ s.has i = true := by
  rw [members, mem_toList]
  refine ⟨fun h => h.2, fun h => ⟨?_, h⟩⟩
  have hle : 2 ^ i ≤ s.bits := Nat.ge_two_pow_of_testBit h
  have hpos : 0 < 2 ^ i := Nat.two_pow_pos i
  have hne : s.bits ≠ 0 := by omega
  rw [bound, if_neg hne, Nat.lt_succ_iff, Nat.le_log2 hne]
  exact hle

theorem subset_refl (s : BitSet) : s.subset s = true := subset_iff.mpr fun _ h => h

theorem subset_trans {u : BitSet} (h : s.subset t = true) (k : t.subset u = true) :
    s.subset u = true :=
  subset_iff.mpr fun i hi => subset_iff.mp k i (subset_iff.mp h i hi)

theorem subset_antisymm (h : s.subset t = true) (k : t.subset s = true) : s = t := by
  refine ext fun i => ?_
  have hi := subset_iff.mp h i
  have ki := subset_iff.mp k i
  cases hs : s.has i <;> cases ht : t.has i <;> simp_all

/-- Every list of numbers is the list of members of a set. -/
theorem exists_ofList (l : List Nat) : ∃ s : BitSet, ∀ i, s.has i = true ↔ i ∈ l := by
  induction l with
  | nil => exact ⟨.empty, by simp⟩
  | cons j rest ih =>
    obtain ⟨s, hs⟩ := ih
    refine ⟨s.insert j, fun i => ?_⟩
    rw [has_insert, Bool.or_eq_true, decide_eq_true_eq, hs, List.mem_cons, eq_comm]

/-- So is every part of a set. -/
theorem exists_filter (s : BitSet) (P : Nat → Prop) :
    ∃ t : BitSet, ∀ i, t.has i = true ↔ s.has i = true ∧ P i := by
  classical
  obtain ⟨t, ht⟩ := exists_ofList (s.members.filter (P ·))
  exact ⟨t, fun i => by simp [ht, mem_members]⟩

end MicroFlow.BitSet
