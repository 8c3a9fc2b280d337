import Mathlib.Data.List.Nodup
import MicroFlow.Cache.Recency

/-!
# What a cache holds

Using, storing, removing and reloading entries moves and drops entries.  An entry that
is there afterwards was there before, or it is the one that was stored or loaded:
`Holds` is kept by every operation.

No operation leaves two entries for one key, or more entries than there is room for: every one
of them keeps a cache tidy (`Tidy`).
-/

namespace MicroFlow.Recency

variable {V : Type} {c : Recency V} {P : String × V → Prop}

/-- Every entry of the cache is of a kind. -/
def Holds (c : Recency V) (P : String × V → Prop) : Prop := ∀ e ∈ c.entries, P e

/-- What is found under a key is an entry. -/
theorem mem_of_find? {k : String} {v : V} (h : c.find? k = some v) : (k, v) ∈ c.entries := by
  obtain ⟨before, after, heq, -⟩ := List.lookup_eq_some_iff.mp h
  rw [heq]
  exact List.mem_append_right _ List.mem_cons_self

/-- A lookup that misses moves no entry. -/
theorem entries_get_of_none {k : String} (h : c.find? k = none) :
    (c.get k).2.entries = c.entries := by
  rw [Recency.get, h]

/-- Taking out a key adds nothing. -/
theorem mem_without {k : String} {es : List (String × V)} {e : String × V}
    (h : e ∈ without k es) : e ∈ es :=
  (List.mem_filter.mp h).1

theorem holds_empty {n : Int} : Holds ({ capacity := n } : Recency V) P := by
  intro e he
  cases he

/-- Storing an entry of the kind. -/
theorem Holds.stored {k : String} {v : V} (h : c.Holds P) (hv : P (k, v)) :
    ∀ e ∈ c.stored k v, P e := by
  intro e he
  obtain rfl | he := List.mem_cons.mp he
  · exact hv
  · exact h e (mem_without he)

/-- Dropping the oldest entries. -/
theorem holds_trim {es : List (String × V)} (h : ∀ e ∈ es, P e) : (c.trim es).Holds P :=
  fun e he => h e (List.mem_of_mem_take he)

/-- A lookup moves an entry to the front at most. -/
theorem Holds.get (h : c.Holds P) (k : String) : (c.get k).2.Holds P := by
  rw [Recency.get]
  cases hf : c.find? k with
  | none => exact h
  | some v => exact h.stored (h _ (mem_of_find? hf))

/-- Storing keeps the kind, with or without an entry for the key. -/
theorem Holds.set {k : String} {v : V} (h : c.Holds P) (hv : P (k, v)) : (c.set k v).Holds P := by
  rw [Recency.set]
  split
  · exact h.stored hv
  · exact holds_trim (h.stored hv)

theorem Holds.delete (h : c.Holds P) (k : String) : (c.delete k).Holds P :=
  fun e he => h e (mem_without he)

theorem holds_clear : c.clear.Holds P := by
  intro e he
  cases he

/-- Entries that are loaded leave nothing but themselves. -/
theorem holds_restore {es : List (String × V)} (h : ∀ e ∈ es, P e) : (c.restore es).Holds P := by
  refine holds_trim ?_
  -- the entries used so far are all from the list
  suffices hfold : ∀ (es acc : List (String × V)), (∀ e ∈ es, P e) → (∀ e ∈ acc, P e) →
      ∀ e ∈ es.foldl (fun acc e => e :: without e.1 acc) acc, P e by
    exact hfold es [] h (by simp)
  intro es
  induction es with
  | nil =>
    intro acc _ hacc
    exact hacc
  | cons a es ih =>
    intro acc hes hacc
    refine ih _ (fun e he => hes e (List.mem_cons_of_mem _ he)) fun e he => ?_
    obtain rfl | he := List.mem_cons.mp he
    · exact hes e List.mem_cons_self
    · exact hacc e (mem_without he)

/-! ## One entry for a key -/

section Entries

variable {k : String} {v : V} {es xs ys : List (String × V)}

/-- Taking out a key takes out its entries and no others. -/
theorem mem_without_iff {e : String × V} : e ∈ without k es ↔ e ∈ es ∧ e.1 ≠ k := by
  simp [without]

/-- There is nothing to take out for a key without an entry. -/
theorem without_eq_self (h : k ∉ es.map Prod.fst) : without k es = es := by
  refine List.filter_eq_self.mpr fun e he => ?_
  rw [bne_iff_ne]
  rintro rfl
  exact h (List.mem_map_of_mem he)

/-- The one entry of a key is taken out from between the others. -/
theorem without_middle (hxs : k ∉ xs.map Prod.fst) (hys : k ∉ ys.map Prod.fst) :
    without k (xs ++ (k, v) :: ys) = xs ++ ys := by
  rw [without, List.filter_append, List.filter_cons_of_neg (by simp)]
  exact congrArg₂ _ (without_eq_self hxs) (without_eq_self hys)

/-- A key that is stored anew has one entry, in front. -/
theorem nodup_cons_without (h : (es.map Prod.fst).Nodup) :
    (((k, v) :: without k es).map Prod.fst).Nodup := by
  refine List.nodup_cons.mpr ⟨fun hmem => ?_, h.sublist (List.filter_sublist.map _)⟩
  obtain ⟨e, he, hek⟩ := List.mem_map.mp hmem
  exact (mem_without_iff.mp he).2 hek

/-- A key with an entry leaves fewer entries when it is taken out. -/
theorem length_without_lt (h : k ∈ es.map Prod.fst) : (without k es).length < es.length := by
  obtain ⟨e, he, rfl⟩ := List.mem_map.mp h
  exact List.length_filter_lt_length_iff_exists.mpr ⟨e, he, by simp⟩

/-- A lookup misses exactly the keys without an entry. -/
theorem find?_eq_none_iff : c.find? k = none ↔ k ∉ c.keys := by
  rw [find?, List.lookup_eq_none_iff, keys, List.mem_map]
  constructor
  · rintro h ⟨e, he, rfl⟩
    simpa using h e he
  · intro h e he
    rw [bne_iff_ne]
    rintro rfl
    exact h ⟨e, he, rfl⟩

theorem mem_keys_of_isSome (h : (c.find? k).isSome = true) : k ∈ c.keys := by
  by_contra hnot
  rw [find?_eq_none_iff.mpr hnot] at h
  cases h

/-- A new key is put in front of all entries. -/
theorem stored_of_none (h : c.find? k = none) : c.stored k v = (k, v) :: c.entries := by
  rw [stored, without_eq_self (find?_eq_none_iff.mp h)]

theorem capacity_get (c : Recency V) (k : String) : (c.get k).2.capacity = c.capacity := by
  rw [get]
  cases c.find? k <;> rfl

theorem capacity_set (c : Recency V) (k : String) (v : V) : (c.set k v).capacity = c.capacity := by
  rw [set]
  split <;> rfl

/-- Room is never made by adding entries. -/
theorem room_le {n : Nat} : c.room n ≤ n := by
  rw [room]
  split
  · exact Nat.min_le_right _ _
  · exact Nat.le_refl _

/-- A positive capacity is not exceeded. -/
theorem room_fits {n : Nat} (h : 0 < c.capacity) : (c.room n : Int) ≤ c.capacity := by
  rw [room, if_pos h]
  omega

end Entries

/-! ## Tidy caches -/

/-- A key has one entry, and there are no more entries than there is room for. -/
structure Tidy (c : Recency V) : Prop where
  nodup : c.keys.Nodup
  fits : 0 < c.capacity → (c.size : Int) ≤ c.capacity

theorem tidy_empty {n : Int} : Tidy ({ capacity := n } : Recency V) where
  nodup := List.nodup_nil
  fits := Int.le_of_lt

/-- Entries with different keys are tidy after those without room are dropped. -/
theorem tidy_trim {es : List (String × V)} (h : (es.map Prod.fst).Nodup) : (c.trim es).Tidy where
  nodup := h.sublist ((List.take_sublist _ _).map _)
  fits hcapacity := by
    have hroom : (c.room es.length : Int) ≤ c.capacity := room_fits hcapacity
    show ((es.take (c.room es.length)).length : Int) ≤ c.capacity
    rw [List.length_take]
    omega

/-- Storing under a key that is there takes no more room. -/
theorem Tidy.stored {k : String} (h : c.Tidy) (hk : k ∈ c.keys) (v : V) :
    ({ c with entries := c.stored k v } : Recency V).Tidy where
  nodup := nodup_cons_without h.nodup
  fits hcapacity := by
    have hlt := length_without_lt hk
    have hfits := h.fits hcapacity
    show ((c.stored k v).length : Int) ≤ c.capacity
    rw [Recency.stored, List.length_cons]
    have hsize : c.entries.length = c.size := rfl
    omega

/-- A lookup keeps a cache tidy. -/
theorem Tidy.get (h : c.Tidy) (k : String) : (c.get k).2.Tidy := by
  rw [Recency.get]
  cases hf : c.find? k with
  | none => exact ⟨h.nodup, h.fits⟩
  | some v =>
    have hstored := h.stored (mem_keys_of_isSome (by rw [hf]; rfl)) v
    exact ⟨hstored.nodup, hstored.fits⟩

/-- Storing keeps a cache tidy: the key was there, or room is made. -/
theorem Tidy.set (h : c.Tidy) (k : String) (v : V) : (c.set k v).Tidy := by
  rw [Recency.set]
  split
  next hsome => exact h.stored (mem_keys_of_isSome hsome) v
  next => exact tidy_trim (nodup_cons_without h.nodup)

/-- Removing keeps a cache tidy. -/
theorem Tidy.delete (h : c.Tidy) (k : String) : (c.delete k).Tidy where
  nodup := h.nodup.sublist (List.filter_sublist.map _)
  fits hcapacity := by
    have hle : (without k c.entries).length ≤ c.size := List.length_filter_le _ _
    have hfits := h.fits hcapacity
    show ((without k c.entries).length : Int) ≤ c.capacity
    omega

theorem tidy_clear : c.clear.Tidy where
  nodup := List.nodup_nil
  fits := Int.le_of_lt

end MicroFlow.Recency
