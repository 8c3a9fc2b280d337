import Mathlib.Order.Lattice
import MicroFlow.Flow.Analysis

/-!
# Least upper bounds

An analysis compares mappings with a test and merges them with an operation, and the laws hold for
the mappings of one graph.  So they are stated here of a test and an operation, on the values that
satisfy a predicate (`Joins`, `LeastBounds`).

Both pass from mappings to values, which can be undefined (`Joins.lift`, `LeastBounds.lift`).
-/

namespace MicroFlow

variable {α M : Type}

/-- On the values that satisfy `P` the test `le` is a preorder, and `join` gives upper bounds that
are below all others. -/
structure Joins (P : α → Prop) (le : α → α → Bool) (join : α → α → α) : Prop where
  refl : ∀ {x : α}, P x → le x x = true
  trans : ∀ {x y z : α}, P x → P y → P z → le x y = true → le y z = true → le x z = true
  left : ∀ {x y : α}, P x → P y → le x (join x y) = true
  right : ∀ {x y : α}, P x → P y → le y (join x y) = true
  least : ∀ {x y z : α}, P x → P y → P z → le x z = true → le y z = true → le (join x y) z = true

/-- On the values that satisfy `P` the test `le` is a partial order, and `join` gives least upper
bounds. -/
structure LeastBounds (P : α → Prop) (le : α → α → Bool) (join : α → α → α) : Prop
    extends Joins P le join where
  antisymm : ∀ {x y : α}, P x → P y → le x y = true → le y x = true → x = y
  closed : ∀ {x y : α}, P x → P y → P (join x y)

/-! ## The semilattice -/

namespace LeastBounds

variable {P : α → Prop} {le : α → α → Bool} {join : α → α → α} {x y z : α}

/-- The semilattice of the values that satisfy the predicate. -/
@[reducible] def semilattice (h : LeastBounds P le join) : SemilatticeSup {x // P x} where
  le x y := le x.1 y.1 = true
  le_refl x := h.refl x.2
  le_trans x y z := h.trans x.2 y.2 z.2
  le_antisymm x y hxy hyx := Subtype.ext (h.antisymm x.2 y.2 hxy hyx)
  sup x y := ⟨join x.1 y.1, h.closed x.2 y.2⟩
  le_sup_left x y := h.left x.2 y.2
  le_sup_right x y := h.right x.2 y.2
  sup_le x y z := h.least x.2 y.2 z.2

theorem comm (h : LeastBounds P le join) (hx : P x) (hy : P y) : join x y = join y x :=
  congrArg Subtype.val (@sup_comm _ h.semilattice ⟨x, hx⟩ ⟨y, hy⟩)

theorem assoc (h : LeastBounds P le join) (hx : P x) (hy : P y) (hz : P z) :
    join (join x y) z = join x (join y z) :=
  congrArg Subtype.val (@sup_assoc _ h.semilattice ⟨x, hx⟩ ⟨y, hy⟩ ⟨z, hz⟩)

theorem self (h : LeastBounds P le join) (hx : P x) : join x x = x :=
  congrArg Subtype.val (@sup_idem _ h.semilattice ⟨x, hx⟩)

end LeastBounds

/-! ## Values that can be undefined -/

section

variable {a : Analysis M} {Mapping : M → Prop} {x y : Option M}

/-- Joined values are mappings if merged mappings are. -/
theorem Analysis.join_mem (h : ∀ {m n : M}, Mapping m → Mapping n → Mapping (a.merge m n))
    (hx : ∀ m ∈ x, Mapping m) (hy : ∀ m ∈ y, Mapping m) : ∀ m ∈ a.join x y, Mapping m := by
  cases x with
  | none => exact hy
  | some l =>
    cases y with
    | none => exact hx
    | some m =>
      intro n hn
      cases hn
      exact h (hx l rfl) (hy m rfl)

/-- Values that are below each other are equal, if mappings are. -/
theorem Analysis.leq_antisymm (h : ∀ {m n : M}, Mapping m → Mapping n → a.included m n = true →
    a.included n m = true → m = n) (hx : ∀ m ∈ x, Mapping m) (hy : ∀ m ∈ y, Mapping m)
    (hxy : a.leq x y = true) (hyx : a.leq y x = true) : x = y := by
  cases x with
  | none =>
    cases y with
    | none => rfl
    | some m => cases hyx
  | some l =>
    cases y with
    | none => cases hxy
    | some m => rw [h (hx l rfl) (hy m rfl) hxy hyx]

/-- An undefined value is below every other, and joins leave it out. -/
theorem Joins.lift (h : Joins Mapping a.included a.merge) :
    Joins (fun x : Option M => ∀ m ∈ x, Mapping m) a.leq a.join where
  refl {x} hx := by
    cases x with
    | none => rfl
    | some l => exact h.refl (hx l rfl)
  trans {x y z} hx hy hz hxy hyz := by
    cases x with
    | none => simp
    | some l =>
      cases y with
      | none => cases hxy
      | some m =>
        cases z with
        | none => cases hyz
        | some n => exact h.trans (hx l rfl) (hy m rfl) (hz n rfl) hxy hyz
  left {x y} hx hy := by
    cases x with
    | none => simp
    | some l =>
      cases y with
      | none => exact h.refl (hx l rfl)
      | some m => exact h.left (hx l rfl) (hy m rfl)
  right {x y} hx hy := by
    cases y with
    | none => simp
    | some m =>
      cases x with
      | none => exact h.refl (hy m rfl)
      | some l => exact h.right (hx l rfl) (hy m rfl)
  least {x y z} hx hy hz hxz hyz := by
    cases x with
    | none => exact hyz
    | some l =>
      cases y with
      | none => exact hxz
      | some m =>
        cases z with
        | none => cases hxz
        | some n => exact h.least (hx l rfl) (hy m rfl) (hz n rfl) hxz hyz

/-- Least bounds of mappings are least bounds of values. -/
theorem LeastBounds.lift (h : LeastBounds Mapping a.included a.merge) :
    LeastBounds (fun x : Option M => ∀ m ∈ x, Mapping m) a.leq a.join where
  toJoins := h.toJoins.lift
  antisymm := Analysis.leq_antisymm h.antisymm
  closed := Analysis.join_mem h.closed

end

end MicroFlow
