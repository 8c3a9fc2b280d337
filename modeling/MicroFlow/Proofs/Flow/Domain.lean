import MicroFlow.Flow.Solver
import MicroFlow.Proofs.Flow.Bounds
import MicroFlow.Proofs.Graph.Coherent

/-!
# Domains of analyses

The solvers are written for any analysis.  `Analysis.Domain` collects what they need of
one: an order with least upper bounds, transfers that succeed and are monotone, and a
rank that grows whenever a mapping does and is bounded by the height.

Two sets of mappings are told apart.  The `Shaped` ones are the mappings of the graph:
they have an entry for each of its variables.  The laws of the order hold for these.  The
`Proper` ones are those that can come up in a solver; on them the order is antisymmetric,
and the rank counts.

The laws are stated for mappings, and lifted here to values, which can be undefined.
-/

namespace MicroFlow

variable {M : Type} {m : M}

/-- A mapping is below a value that has one above it. -/
theorem Analysis.leq_some_iff {a : Analysis M} {x : Option M} :
    a.leq (some m) x = true ↔ ∃ n, x = some n ∧ a.included m n = true := by
  cases x with
  | none => simp [Analysis.leq]
  | some n => simp [Analysis.leq]

/-- What the solvers need of an analysis on a graph. -/
structure Analysis.Domain (a : Analysis M) (g : Graph) where
  /-- The mappings of the graph. -/
  Shaped : M → Prop
  /-- The mappings that can come up in a solver. -/
  Proper : M → Prop
  /-- How far a mapping has grown. -/
  rank : M → Nat
  /-- The rank that no mapping exceeds. -/
  top : Nat
  shaped_of_proper : ∀ {m : M}, Proper m → Shaped m
  included_refl : ∀ {m : M}, Shaped m → a.included m m = true
  included_trans : ∀ {l m n : M}, Shaped l → Shaped m → Shaped n →
    a.included l m = true → a.included m n = true → a.included l n = true
  included_antisymm : ∀ {m n : M}, Proper m → Proper n →
    a.included m n = true → a.included n m = true → m = n
  included_merge_left : ∀ {m n : M}, Shaped m → Shaped n → a.included m (a.merge m n) = true
  included_merge_right : ∀ {m n : M}, Shaped m → Shaped n → a.included n (a.merge m n) = true
  merge_included : ∀ {l m n : M}, Shaped l → Shaped m → Shaped n →
    a.included l n = true → a.included m n = true → a.included (a.merge l m) n = true
  proper_initial : Proper a.initial
  proper_merge : ∀ {m n : M}, Proper m → Proper n → Proper (a.merge m n)
  exists_transfer : ∀ {e : Edge} {m : M}, e ∈ g.edges → Shaped m →
    ∃ n, a.transfer m e = .ok n ∧ Shaped n
  proper_transfer : ∀ {e : Edge} {m n : M}, e ∈ g.edges → Proper m →
    a.transfer m e = .ok n → Proper n
  transfer_mono : ∀ {e : Edge} {m n m' n' : M}, e ∈ g.edges → Shaped m → Shaped n →
    a.included m n = true → a.transfer m e = .ok m' → a.transfer n e = .ok n' →
    a.included m' n' = true
  rank_pos : ∀ m : M, 0 < rank m
  rank_le : ∀ {m : M}, Proper m → rank m ≤ top
  rank_lt : ∀ {m n : M}, Proper m → Proper n → a.included m n = true → m ≠ n → rank m < rank n
  top_le : top ≤ a.height

namespace Analysis.Domain

variable {a : Analysis M} {g : Graph} (D : a.Domain g)

/-! ## Values -/

/-- A value of the graph, if it is defined. -/
def ShapedValue (x : Option M) : Prop := ∀ m, x = some m → D.Shaped m

/-- A value that can come up in a solver. -/
def ProperValue (x : Option M) : Prop := ∀ m, x = some m → D.Proper m

/-- How far a value has grown; an undefined one has not. -/
def level : Option M → Nat
  | none => 0
  | some m => D.rank m

variable {D} {x y z : Option M}

theorem ProperValue.shaped (h : D.ProperValue x) : D.ShapedValue x :=
  fun m hm => D.shaped_of_proper (h m hm)

theorem properValue_none : D.ProperValue none := by
  intro m hm
  cases hm

theorem properValue_some (h : D.Proper m) : D.ProperValue (some m) := by
  intro n hn
  cases hn
  exact h

/-- The mappings of a domain have least bounds. -/
theorem joins (D : a.Domain g) : Joins D.Shaped a.included a.merge where
  refl := D.included_refl
  trans := D.included_trans
  left := D.included_merge_left
  right := D.included_merge_right
  least := D.merge_included

theorem leq_refl (hx : D.ShapedValue x) : a.leq x x = true := D.joins.lift.refl hx

theorem leq_trans (hx : D.ShapedValue x) (hy : D.ShapedValue y) (hz : D.ShapedValue z)
    (hxy : a.leq x y = true) (hyz : a.leq y z = true) : a.leq x z = true :=
  D.joins.lift.trans hx hy hz hxy hyz

theorem leq_antisymm (hx : D.ProperValue x) (hy : D.ProperValue y) (hxy : a.leq x y = true)
    (hyx : a.leq y x = true) : x = y :=
  Analysis.leq_antisymm D.included_antisymm hx hy hxy hyx

theorem leq_join_left (hx : D.ShapedValue x) (hy : D.ShapedValue y) : a.leq x (a.join x y) = true :=
  D.joins.lift.left hx hy

theorem leq_join_right (hx : D.ShapedValue x) (hy : D.ShapedValue y) :
    a.leq y (a.join x y) = true := D.joins.lift.right hx hy

theorem join_leq (hx : D.ShapedValue x) (hy : D.ShapedValue y) (hz : D.ShapedValue z)
    (hxz : a.leq x z = true) (hyz : a.leq y z = true) : a.leq (a.join x y) z = true :=
  D.joins.lift.least hx hy hz hxz hyz

theorem ProperValue.join (hx : D.ProperValue x) (hy : D.ProperValue y) :
    D.ProperValue (a.join x y) := Analysis.join_mem D.proper_merge hx hy

variable {e : Edge}

/-- Evaluating an edge has a result. -/
theorem exists_apply (he : e ∈ g.edges) (hx : D.ShapedValue x) :
    ∃ y, a.apply x e = .ok y ∧ D.ShapedValue y := by
  cases x with
  | none => exact ⟨none, rfl, fun m hm => by cases hm⟩
  | some m =>
    obtain ⟨n, hn, hshaped⟩ := D.exists_transfer he (hx m rfl)
    refine ⟨some n, ?_, ?_⟩
    · simp only [Analysis.apply, hn]
      rfl
    · intro n' hn'
      cases hn'
      exact hshaped

/-- A defined value stays defined. -/
theorem apply_some (h : a.apply (some m) e = .ok y) : ∃ n, y = some n ∧ a.transfer m e = .ok n := by
  rw [Analysis.apply, bind_eq_ok] at h
  obtain ⟨n, hn, hy⟩ := h
  cases hy
  exact ⟨n, rfl, hn⟩

/-- Evaluating an edge keeps values proper. -/
theorem ProperValue.apply (hx : D.ProperValue x) (he : e ∈ g.edges)
    (h : a.apply x e = .ok y) : D.ProperValue y := by
  cases x with
  | none =>
    cases h
    exact properValue_none
  | some m =>
    obtain ⟨n, rfl, hn⟩ := apply_some h
    exact properValue_some (D.proper_transfer he (hx m rfl) hn)

/-- Evaluating an edge keeps inclusions. -/
theorem apply_mono {x' y' : Option M} (he : e ∈ g.edges) (hx : D.ShapedValue x)
    (hy : D.ShapedValue y) (hxy : a.leq x y = true) (hx' : a.apply x e = .ok x')
    (hy' : a.apply y e = .ok y') : a.leq x' y' = true := by
  cases x with
  | none =>
    cases hx'
    simp
  | some m =>
    cases y with
    | none => cases hxy
    | some n =>
      obtain ⟨m', rfl, hm'⟩ := apply_some hx'
      obtain ⟨n', rfl, hn'⟩ := apply_some hy'
      exact D.transfer_mono he (hx m rfl) (hy n rfl) hxy hm' hn'

/-- Levels are bounded by the height of the domain. -/
theorem level_le (hx : D.ProperValue x) : D.level x ≤ D.top := by
  cases x with
  | none => exact Nat.zero_le _
  | some m => exact D.rank_le (hx m rfl)

/-- A join that adds something has a higher level. -/
theorem level_lt_join (hx : D.ProperValue x) (hy : D.ProperValue y) (h : a.leq y x = false) :
    D.level x < D.level (a.join x y) := by
  cases y with
  | none => simp at h
  | some n =>
    cases x with
    | none => exact D.rank_pos n
    | some m =>
      have hm := D.shaped_of_proper (hx m rfl)
      have hn := D.shaped_of_proper (hy n rfl)
      refine D.rank_lt (hx m rfl) (D.proper_merge (hx m rfl) (hy n rfl))
        (D.included_merge_left hm hn) ?_
      intro heq
      have hle : a.included n m = true := by
        have := D.included_merge_right hm hn
        rwa [← heq] at this
      rw [Analysis.leq, hle] at h
      cases h

end Analysis.Domain

end MicroFlow
