/-!
# Finite sets of numbers

A set of natural numbers is kept as the number whose binary digit `i` says whether
`i` is a member.  Two sets with the same members are equal.
-/

namespace MicroFlow

/-- A finite set of natural numbers. -/
structure BitSet where
  bits : Nat := 0
deriving DecidableEq, Repr, Inhabited

namespace BitSet

/-- Membership. -/
def has (s : BitSet) (i : Nat) : Bool := s.bits.testBit i

instance : Membership Nat BitSet where
  mem s i := s.has i = true

instance (i : Nat) (s : BitSet) : Decidable (i ∈ s) := inferInstanceAs (Decidable (s.has i = true))

/-- The set without members. -/
def empty : BitSet := ⟨0⟩

/-- The numbers below `n`. -/
def below (n : Nat) : BitSet := ⟨(1 <<< n) - 1⟩

/-- The set with one member. -/
def single (i : Nat) : BitSet := ⟨1 <<< i⟩

def union (s t : BitSet) : BitSet := ⟨s.bits ||| t.bits⟩

def inter (s t : BitSet) : BitSet := ⟨s.bits &&& t.bits⟩

def insert (i : Nat) (s : BitSet) : BitSet := (single i).union s

/-- The set without `i`. -/
def erase (i : Nat) (s : BitSet) : BitSet := if s.has i then ⟨s.bits ^^^ (1 <<< i)⟩ else s

/-- Inclusion: joining with the larger set changes nothing. -/
def subset (s t : BitSet) : Bool := s.union t == t

/-- The members below `n` in increasing order. -/
def toList (n : Nat) (s : BitSet) : List Nat := (List.range n).filter s.has

/-- A bound above every member. -/
def bound (s : BitSet) : Nat := if s.bits = 0 then 0 else s.bits.log2 + 1

/-- The members in increasing order. -/
def members (s : BitSet) : List Nat := s.toList s.bound

theorem ext {s t : BitSet} (h : ∀ i, s.has i = t.has i) : s = t := by
  cases s; cases t
  exact congrArg BitSet.mk (Nat.eq_of_testBit_eq h)

@[simp] theorem has_empty (i : Nat) : empty.has i = false := by simp [has, empty]

@[simp] theorem has_below (n i : Nat) : (below n).has i = decide (i < n) := by
  simp [has, below, Nat.one_shiftLeft, Nat.testBit_two_pow_sub_one]

@[simp] theorem has_single (i j : Nat) : (single i).has j = decide (i = j) := by
  simp [has, single, Nat.one_shiftLeft, Nat.testBit_two_pow]

@[simp] theorem has_union (s t : BitSet) (i : Nat) : (s.union t).has i = (s.has i || t.has i) := by
  simp [has, union]

@[simp] theorem has_inter (s t : BitSet) (i : Nat) : (s.inter t).has i = (s.has i && t.has i) := by
  simp [has, inter]

@[simp] theorem has_insert (i j : Nat) (s : BitSet) :
    (s.insert i).has j = (decide (i = j) || s.has j) := by
  simp [insert]

@[simp] theorem has_erase (i j : Nat) (s : BitSet) :
    (s.erase i).has j = (s.has j && decide (i ≠ j)) := by
  unfold erase
  split
  · rename_i h
    simp only [has, Nat.testBit_xor, Nat.one_shiftLeft, Nat.testBit_two_pow] at *
    by_cases hij : i = j
    · subst hij; simp [h]
    · simp [hij]
  · rename_i h
    by_cases hij : i = j
    · subst hij; simp [Bool.not_eq_true _ ▸ h]
    · simp [hij]

/-- Inclusion is inclusion of members. -/
theorem subset_iff {s t : BitSet} : s.subset t = true ↔ ∀ i, s.has i = true → t.has i = true := by
  simp only [subset, beq_iff_eq]
  constructor
  · intro h i hi
    rw [← h]; simp [hi]
  · intro h
    apply ext
    intro i
    have := h i
    cases hs : s.has i <;> simp_all

@[simp] theorem mem_toList {n : Nat} {s : BitSet} {i : Nat} :
    i ∈ s.toList n ↔ i < n ∧ s.has i = true := by
  simp [toList]

end BitSet

end MicroFlow
