import Mathlib.Tactic.ByContra
import Mathlib.Tactic.Push
import MicroFlow.Sign.Operation

/-!
# Sets of signs, ordered by inclusion

Union and intersection make sets of signs a distributive lattice, the bits that name no
sign included.  The tables of arithmetic and of relations are monotone in this order.

A set is `Proper` when it has a member and names nothing but signs.  The operations give
proper sets from proper sets, and the size of a proper set grows with the set
(`SignSet.size_lt`).
-/

namespace MicroFlow.SignSet

/-! ## The lattice -/

variable {s t l r : SignSet}

theorem subset_iff_inter : s.subset t = true ↔ s.inter t = s := by
  simp [subset]

theorem inter_comm (s t : SignSet) : s.inter t = t.inter s :=
  ext' (fun x => by simp [Bool.and_comm]) (BitVec.and_comm _ _)

theorem inter_assoc (s t u : SignSet) : (s.inter t).inter u = s.inter (t.inter u) :=
  ext' (fun x => by simp [Bool.and_assoc]) (BitVec.and_assoc _ _ _)

theorem inter_self (s : SignSet) : s.inter s = s := ext' (fun x => by simp) (by simp [inter])

theorem union_comm (s t : SignSet) : s.union t = t.union s :=
  ext' (fun x => by simp [Bool.or_comm]) (BitVec.or_comm _ _)

/-- Intersection absorbs union. -/
theorem inter_union_self (s t : SignSet) : s.inter (s.union t) = s := by
  refine ext' (fun x => ?_) ?_
  · rw [has_inter, has_union]
    cases s.has x <;> simp
  · simp only [inter, union]
    ext i hi
    simp only [BitVec.getElem_and, BitVec.getElem_or]
    cases s.spare[i] <;> simp

/-- Intersection distributes over union. -/
theorem union_inter_distrib (s t u : SignSet) :
    (s.union t).inter u = (s.inter u).union (t.inter u) := by
  refine ext' (fun x => ?_) ?_
  · simp [Bool.and_or_distrib_right]
  · simp only [inter, union]
    ext i hi
    simp [Bool.and_or_distrib_right]

theorem subset_refl (s : SignSet) : s.subset s = true := subset_iff_inter.mpr (inter_self s)

theorem subset_trans {u : SignSet} (hst : s.subset t = true) (htu : t.subset u = true) :
    s.subset u = true := by
  rw [subset_iff_inter] at *
  calc s.inter u = (s.inter t).inter u := by rw [hst]
    _ = s.inter (t.inter u) := inter_assoc s t u
    _ = s := by rw [htu, hst]

theorem subset_antisymm (hst : s.subset t = true) (hts : t.subset s = true) : s = t := by
  rw [subset_iff_inter] at *
  rw [← hst, inter_comm, hts]

theorem subset_union_left (s t : SignSet) : s.subset (s.union t) = true :=
  subset_iff_inter.mpr (inter_union_self s t)

theorem subset_union_right (s t : SignSet) : t.subset (s.union t) = true := by
  rw [union_comm]
  exact subset_union_left t s

/-- A union is below what both parts are below. -/
theorem union_subset {u : SignSet} (hs : s.subset u = true) (ht : t.subset u = true) :
    (s.union t).subset u = true := by
  rw [subset_iff_inter] at *
  rw [union_inter_distrib, hs, ht]

theorem union_mono {s' t' : SignSet} (hs : s.subset s' = true) (ht : t.subset t' = true) :
    (s.union t).subset (s'.union t') = true :=
  union_subset (subset_trans hs (subset_union_left s' t'))
    (subset_trans ht (subset_union_right s' t'))

/-- Intersections grow with their parts. -/
theorem inter_mono {s' t' : SignSet} (hs : s.subset s' = true) (ht : t.subset t' = true) :
    (s.inter t).subset (s'.inter t') = true := by
  rw [subset_iff_inter] at *
  calc (s.inter t).inter (s'.inter t') = (s.inter s').inter (t.inter t') := by
        rw [inter_assoc, ← inter_assoc t, inter_comm t s', inter_assoc s', ← inter_assoc s]
    _ = s.inter t := by rw [hs, ht]

theorem has_of_subset (h : s.subset t = true) {x : Sign} (hx : s.has x = true) :
    t.has x = true := by
  rw [subset_iff_inter] at h
  rw [← h, has_inter, Bool.and_eq_true] at hx
  exact hx.2

/-- Inclusion by members, where no other bits are set. -/
theorem subset_of_has (hspare : s.spare = 0)
    (h : ∀ x, s.has x = true → t.has x = true) : s.subset t = true := by
  refine subset_iff_inter.mpr (ext' (fun x => ?_) (by simp [inter, hspare]))
  rw [has_inter]
  cases hs : s.has x with
  | false => rfl
  | true => simp [h x hs]

/-- A subset of an empty set is empty. -/
theorem isEmpty_mono (h : s.subset t = true) (ht : t.isEmpty = true) : s.isEmpty = true := by
  have htop : t = empty := by simpa [isEmpty] using ht
  rw [subset_iff_inter, htop] at h
  have hempty : s.inter empty = empty := ext' (fun x => by simp) (by simp [inter, empty])
  rw [← h, hempty]
  rfl

/-! ## Proper sets -/

/-- The set has a member, and names nothing but signs. -/
structure Proper (s : SignSet) : Prop where
  spare : s.spare = 0
  nonempty : ∃ x, s.has x = true

theorem isEmpty_eq_false {x : Sign} (hx : s.has x = true) : s.isEmpty = false := by
  by_contra h
  have hs : s = empty := by simpa [isEmpty] using h
  rw [hs, has_empty] at hx
  cases hx

/-- A set that is not empty and names only signs is proper. -/
theorem proper_of_isEmpty (hspare : s.spare = 0) (h : s.isEmpty = false) : s.Proper := by
  refine ⟨hspare, ?_⟩
  by_contra hnone
  have hempty : s = empty := by
    refine ext' (fun x => ?_) hspare
    cases hx : s.has x with
    | false => simp
    | true => exact absurd ⟨x, hx⟩ hnone
  rw [hempty] at h
  cases h

theorem Proper.union {s t : SignSet} (hs : s.Proper) (ht : t.Proper) : (s.union t).Proper := by
  obtain ⟨x, hx⟩ := hs.nonempty
  exact ⟨by simp [SignSet.union, hs.spare, ht.spare], x, by simp [hx]⟩

theorem proper_top : top.Proper := ⟨rfl, .zero, rfl⟩

/-- Unions name nothing but signs if their parts do. -/
theorem spare_unions {sets : List SignSet} (h : ∀ s ∈ sets, s.spare = 0) :
    (unions sets).spare = 0 := by
  induction sets with
  | nil => rfl
  | cons s sets ih =>
    have hrest := ih fun t ht => h t (List.mem_cons_of_mem _ ht)
    have hs := h s (List.mem_cons_self ..)
    change s.spare ||| (unions sets).spare = 0
    rw [hs, hrest]
    rfl

theorem spare_single (x : Sign) : (single x).spare = 0 := rfl

/-- The number of members. -/
def size (s : SignSet) : Nat :=
  s.minus.toNat + s.zero.toNat + s.plus.toNat + s.undef.toNat

theorem size_le (s : SignSet) : s.size ≤ 4 := by
  have h (b : Bool) : b.toNat ≤ 1 := Bool.toNat_le b
  have h1 := h s.minus
  have h2 := h s.zero
  have h3 := h s.plus
  have h4 := h s.undef
  unfold size
  omega

theorem toNat_mono {a b : Bool} (h : a = true → b = true) : a.toNat ≤ b.toNat := by
  cases a <;> cases b <;> simp_all

/-- Inclusion bit by bit. -/
theorem toNat_le_of_subset (h : s.subset t = true) : s.minus.toNat ≤ t.minus.toNat ∧
    s.zero.toNat ≤ t.zero.toNat ∧ s.plus.toNat ≤ t.plus.toNat ∧ s.undef.toNat ≤ t.undef.toNat :=
  ⟨toNat_mono (has_of_subset h (x := .minus)), toNat_mono (has_of_subset h (x := .zero)),
    toNat_mono (has_of_subset h (x := .plus)), toNat_mono (has_of_subset h (x := .undef))⟩

theorem size_mono (h : s.subset t = true) : s.size ≤ t.size := by
  have hle := toNat_le_of_subset h
  unfold size
  omega

/-- A larger set has more members. -/
theorem size_lt (h : s.subset t = true) (ht : t.spare = 0) (hne : s ≠ t) : s.size < t.size := by
  have hspare : s.spare = t.spare := by
    rw [subset_iff_inter] at h
    rw [← h]
    simp [inter, ht]
  obtain ⟨x, hs, hx⟩ : ∃ x, s.has x = false ∧ t.has x = true := by
    by_contra hall
    push Not at hall
    refine hne (ext' (fun x => ?_) hspare)
    cases hsx : s.has x with
    | false =>
      cases htx : t.has x with
      | false => rfl
      | true => exact absurd htx (hall x hsx)
    | true => exact (has_of_subset h hsx).symm
  have hle := toNat_le_of_subset h
  unfold size
  cases x <;> simp only [has] at hs hx <;> simp only [hs, hx, Bool.toNat_false,
    Bool.toNat_true] at * <;> omega

theorem Proper.size_pos (h : s.Proper) : 0 < s.size := by
  obtain ⟨x, hx⟩ := h.nonempty
  unfold size
  cases x <;> simp only [has] at hx <;> simp only [hx, Bool.toNat_true] <;> omega

/-! ## Arithmetic -/

theorem spare_table (op : ArithOp) (a b : Sign) : (Sign.apply op a b).spare = 0 := by
  cases op <;> cases a <;> cases b <;> rfl

/-- Every operation on signs has a result. -/
theorem nonempty_table (op : ArithOp) (a b : Sign) : ∃ x, (Sign.apply op a b).has x = true := by
  have hsigns : (Sign.apply op a b).signs ≠ [] := by
    cases op <;> cases a <;> cases b <;> decide
  obtain ⟨x, hx⟩ := List.exists_mem_of_ne_nil _ hsigns
  exact ⟨x, mem_signs.mp hx⟩

/-- Results name nothing but signs. -/
theorem spare_apply (op : ArithOp) (l r : SignSet) : (apply op l r).spare = 0 := by
  refine spare_unions fun s hs => ?_
  obtain ⟨a, -, b, -, rfl⟩ : ∃ a ∈ l.signs, ∃ b ∈ r.signs, Sign.apply op a b = s := by
    simpa using hs
  exact spare_table op a b

/-- An operator on proper sets gives a proper set. -/
theorem Proper.apply {l r : SignSet} (hl : l.Proper) (hr : r.Proper) (op : ArithOp) :
    (SignSet.apply op l r).Proper := by
  obtain ⟨a, ha⟩ := hl.nonempty
  obtain ⟨b, hb⟩ := hr.nonempty
  obtain ⟨x, hx⟩ := nonempty_table op a b
  exact ⟨spare_apply op l r, x, (has_apply op l r x).mpr ⟨a, b, ha, hb, hx⟩⟩

/-- More operands give more results. -/
theorem apply_subset {op : ArithOp} {l' r' : SignSet} (hl : l.subset l' = true)
    (hr : r.subset r' = true) : (apply op l r).subset (apply op l' r') = true := by
  refine subset_of_has (spare_apply op l r) fun x hx => ?_
  rw [has_apply] at hx ⊢
  obtain ⟨a, b, ha, hb, hx⟩ := hx
  exact ⟨a, b, has_of_subset hl ha, has_of_subset hr hb, hx⟩

/-! ## Relations -/

theorem has_defined (s : SignSet) (x : Sign) :
    s.defined.has x = true ↔ s.has x = true ∧ x ≠ .undef := by
  cases x <;> simp [defined, has]

/-- The pairs of defined signs from two sets. -/
theorem mem_pairs {a b : Sign} :
    (a, b) ∈ pairs l r ↔ (l.has a = true ∧ a ≠ .undef) ∧ r.has b = true ∧ b ≠ .undef := by
  simp only [pairs, List.mem_flatMap, List.mem_map, mem_signs, has_defined, Prod.mk.injEq]
  constructor
  · rintro ⟨a', ha, b', hb, rfl, rfl⟩
    exact ⟨ha, hb⟩
  · rintro ⟨ha, hb⟩
    exact ⟨a, ha, b, hb, rfl, rfl⟩

/-- What stays of the left operand has a partner with which the relation can hold. -/
theorem has_narrow_left {op : RelOp} {a : Sign} : (narrow op l r).1.has a = true ↔
      ∃ b, (a, b) ∈ pairs l r ∧ (Sign.relate op a b).canBeTrue = true := by
  simp only [narrow, has_unions, List.any_eq_true, List.mem_map, List.mem_filter]
  constructor
  · rintro ⟨s, ⟨⟨a', b⟩, ⟨hmem, hrel⟩, rfl⟩, hs⟩
    have heq : a = a' := by simpa using hs
    exact ⟨b, heq ▸ hmem, heq ▸ hrel⟩
  · rintro ⟨b, hmem, hrel⟩
    exact ⟨.single a, ⟨(a, b), ⟨hmem, hrel⟩, rfl⟩, by simp⟩

/-- What remains on the right has a partner on the left. -/
theorem has_narrow_right {op : RelOp} {b : Sign} : (narrow op l r).2.has b = true ↔
      ∃ a, (a, b) ∈ pairs l r ∧ (Sign.relate op a b).canBeTrue = true := by
  simp only [narrow, has_unions, List.any_eq_true, List.mem_map, List.mem_filter]
  constructor
  · rintro ⟨s, ⟨⟨a, b'⟩, ⟨hmem, hrel⟩, rfl⟩, hs⟩
    have heq : b = b' := by simpa using hs
    exact ⟨a, heq ▸ hmem, heq ▸ hrel⟩
  · rintro ⟨a, hmem, hrel⟩
    exact ⟨.single b, ⟨(a, b), ⟨hmem, hrel⟩, rfl⟩, by simp⟩

theorem spare_narrow (op : RelOp) (l r : SignSet) :
    (narrow op l r).1.spare = 0 ∧ (narrow op l r).2.spare = 0 := by
  constructor <;>
  · refine spare_unions fun s hs => ?_
    obtain ⟨p, -, rfl⟩ := List.mem_map.mp hs
    exact spare_single _

/-- With more operands a relation keeps more of them. -/
theorem narrow_subset (op : RelOp) {l' r' : SignSet} (hl : l.subset l' = true)
    (hr : r.subset r' = true) :
    (narrow op l r).1.subset (narrow op l' r').1 = true ∧
      (narrow op l r).2.subset (narrow op l' r').2 = true := by
  have hpairs : ∀ {a b : Sign}, (a, b) ∈ pairs l r → (a, b) ∈ pairs l' r' := by
    intro a b h
    rw [mem_pairs] at h ⊢
    exact ⟨⟨has_of_subset hl h.1.1, h.1.2⟩, has_of_subset hr h.2.1, h.2.2⟩
  constructor
  · refine subset_of_has (spare_narrow op l r).1 fun a ha => ?_
    rw [has_narrow_left] at ha ⊢
    obtain ⟨b, hmem, hrel⟩ := ha
    exact ⟨b, hpairs hmem, hrel⟩
  · refine subset_of_has (spare_narrow op l r).2 fun b hb => ?_
    rw [has_narrow_right] at hb ⊢
    obtain ⟨a, hmem, hrel⟩ := hb
    exact ⟨a, hpairs hmem, hrel⟩

end MicroFlow.SignSet
