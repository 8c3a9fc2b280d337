import Mathlib.Data.List.Forall2

/-!
# Computations that can fail

Inversion of sequences of computations in `Except`: a sequence gives a result exactly
when each of its parts does.
-/

namespace MicroFlow

variable {ε α β : Type} {f : α → Except ε β} {xs : List α} {p : α → Except ε Bool}

/-- A sequence of steps succeeds when each of them does. -/
theorem bind_eq_ok {x : Except ε α} {b : β} : x >>= f = .ok b ↔ ∃ a, x = .ok a ∧ f a = .ok b := by
  cases x <;> simp [bind, Except.bind]

theorem check_bind_eq_ok {x : Except ε Unit} {y : Except ε β} {b : β} :
    (x >>= fun _ => y) = .ok b ↔ x = .ok () ∧ y = .ok b := by
  rw [bind_eq_ok]
  constructor
  · rintro ⟨_, hx, hy⟩
    exact ⟨hx, hy⟩
  · rintro ⟨hx, hy⟩
    exact ⟨(), hx, hy⟩

/-- It fails with the first error. -/
theorem bind_eq_error {x : Except ε α} {e : ε} :
    x >>= f = .error e ↔ x = .error e ∨ ∃ a, x = .ok a ∧ f a = .error e := by
  cases x <;> simp [bind, Except.bind]

/-- A list is mapped when each member is. -/
theorem mapM_eq_ok {ys : List β} :
    xs.mapM f = .ok ys ↔ List.Forall₂ (fun x y => f x = .ok y) xs ys := by
  induction xs generalizing ys with
  | nil =>
    simp only [List.mapM_nil, List.forall₂_nil_left_iff]
    constructor
    · intro h; cases h; rfl
    · rintro rfl; rfl
  | cons x xs ih =>
    simp only [List.mapM_cons, bind_eq_ok, ih, List.forall₂_cons_left_iff]
    constructor
    · rintro ⟨y, hy, ys', hys, h⟩
      cases h
      exact ⟨y, ys', hy, hys, rfl⟩
    · rintro ⟨y, ys', hy, hys, rfl⟩
      exact ⟨y, hy, ys', hys, rfl⟩

/-- What comes out of a traversal, and what went into it. -/
theorem mem_of_mapM_eq_ok {ys : List β} (h : xs.mapM f = .ok ys) :
    (∀ y ∈ ys, ∃ x ∈ xs, f x = .ok y) ∧ ∀ x ∈ xs, ∃ y ∈ ys, f x = .ok y := by
  rw [mapM_eq_ok] at h
  induction h with
  | nil => simp
  | @cons x y xs ys hxy _ ih =>
    refine ⟨fun z hz => ?_, fun z hz => ?_⟩
    · rcases List.mem_cons.mp hz with rfl | hz
      · exact ⟨x, List.mem_cons_self .., hxy⟩
      · obtain ⟨w, hw, hwz⟩ := ih.1 z hz
        exact ⟨w, List.mem_cons_of_mem _ hw, hwz⟩
    · rcases List.mem_cons.mp hz with rfl | hz
      · exact ⟨y, List.mem_cons_self .., hxy⟩
      · obtain ⟨w, hw, hzw⟩ := ih.2 z hz
        exact ⟨w, List.mem_cons_of_mem _ hw, hzw⟩

/-- Nothing fails if no member does. -/
theorem exists_mapM_eq_ok (h : ∀ x ∈ xs, ∃ y, f x = .ok y) : ∃ ys, xs.mapM f = .ok ys := by
  induction xs with
  | nil => exact ⟨[], rfl⟩
  | cons x xs ih =>
    obtain ⟨y, hy⟩ := h x (List.mem_cons_self ..)
    obtain ⟨ys, hys⟩ := ih fun z hz => h z (List.mem_cons_of_mem _ hz)
    refine ⟨y :: ys, ?_⟩
    rw [mapM_eq_ok] at hys ⊢
    exact .cons hy hys

/-- All checks of a list succeed when each one does. -/
theorem forM_eq_ok {f : α → Except ε Unit} : forM xs f = .ok () ↔ ∀ x ∈ xs, f x = .ok () := by
  induction xs with
  | nil => simp [pure, Except.pure]
  | cons x xs ih =>
    rw [List.forM_cons, check_bind_eq_ok, ih]
    simp

/-- A test that never fails selects the members that pass it. -/
theorem exists_filterM_eq_ok (h : ∀ x ∈ xs, ∃ b, p x = .ok b) :
    ∃ ys, xs.filterM p = .ok ys ∧ ∀ x, x ∈ ys ↔ x ∈ xs ∧ p x = .ok true := by
  have haux : ∀ acc : List α, ∃ ys, xs.filterAuxM p acc = .ok ys ∧
      ∀ x, x ∈ ys ↔ x ∈ acc ∨ x ∈ xs ∧ p x = .ok true := by
    induction xs with
    | nil => exact fun acc => ⟨acc, rfl, by simp⟩
    | cons x xs ih =>
      intro acc
      obtain ⟨b, hb⟩ := h x (List.mem_cons_self ..)
      obtain ⟨ys, hys, hmem⟩ := ih (fun y hy => h y (List.mem_cons_of_mem _ hy))
        (if b then x :: acc else acc)
      refine ⟨ys, ?_, fun y => ?_⟩
      · rw [List.filterAuxM, hb]
        cases b <;> exact hys
      · rw [hmem]
        cases b with
        | true => grind
        | false => grind
  obtain ⟨ys, hys, hmem⟩ := haux []
  refine ⟨ys.reverse, ?_, fun x => ?_⟩
  · rw [List.filterM, hys]
    rfl
  · rw [List.mem_reverse, hmem]
    simp

/-- A selection keeps the order. -/
theorem sublist_of_filterM_eq_ok {ys : List α} (h : xs.filterM p = .ok ys) : ys.Sublist xs := by
  have haux : ∀ (xs acc : List α) {ys : List α}, xs.filterAuxM p acc = .ok ys →
      ∃ zs : List α, zs.Sublist xs ∧ ys = zs.reverse ++ acc := by
    intro xs
    induction xs with
    | nil =>
      intro acc ys h
      cases h
      exact ⟨[], .slnil, rfl⟩
    | cons x xs ih =>
      intro acc ys h
      rw [List.filterAuxM, bind_eq_ok] at h
      obtain ⟨b, -, h⟩ := h
      obtain ⟨zs, hzs, rfl⟩ := ih _ h
      cases b with
      | true => exact ⟨x :: zs, hzs.cons_cons x, by simp⟩
      | false => exact ⟨zs, hzs.cons x, rfl⟩
  rw [List.filterM, bind_eq_ok] at h
  obtain ⟨zs, hzs, h⟩ := h
  cases h
  obtain ⟨kept, hkept, rfl⟩ := haux xs [] hzs
  simpa using hkept

theorem mem_of_filterM_eq_ok {ys : List α} (h : xs.filterM p = .ok ys) :
    ∀ y ∈ ys, y ∈ xs := fun _ hy => (sublist_of_filterM_eq_ok h).mem hy

end MicroFlow
