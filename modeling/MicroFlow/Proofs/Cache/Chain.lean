import Mathlib.Data.List.Induction
import Mathlib.Data.List.Nodup
import Mathlib.Data.List.Perm.Subperm
import MicroFlow.Cache.Linked
import MicroFlow.Proofs.Except

/-!
# What a chain spells

A chain is sound when its links say one thing from both ends: there is a list of cells, places
with their entries, such that every item stands at its place between its neighbours in the
list, and both ends and the length are those of the list (`Chain.Spells`).

The links are changed at two points only, at the older side of one cell and at the newer side of
another.  `linkOlder_run` and `linkNewer_run` say what that does to a run of cells with a given
neighbour on either side; taking out, putting in and moving an item are put together from
these two, whether the item stands at an end, in the middle, or alone.
-/

namespace MicroFlow.Chain

variable {V : Type}

/-! ## Runs of cells -/

/-- The place of the first of some cells, or what comes behind when there are none. -/
def first : List (Nat × String × V) → Option Nat → Option Nat
  | [], behind => behind
  | cell :: _, _ => some cell.1

/-- The place of the last of some cells, or what comes before when there are none. -/
def last : List (Nat × String × V) → Option Nat → Option Nat
  | [], before => before
  | cell :: cells, _ => last cells (some cell.1)

/-- The items of the cells are linked in their order, between two neighbours. -/
def Run (items : Std.HashMap Nat (ChainItem V)) :
    Option Nat → List (Nat × String × V) → Option Nat → Prop
  | _, [], _ => True
  | newer, (place, key, value) :: cells, older =>
    items[place]? = some ⟨key, value, newer, first cells older⟩ ∧ Run items (some place) cells older

def places (cells : List (Nat × String × V)) : List Nat := cells.map Prod.fst

variable {x : ChainItem V}

section Runs

variable {items items' : Std.HashMap Nat (ChainItem V)} {newer older : Option Nat}
  {xs ys : List (Nat × String × V)}

theorem mem_places {cell : Nat × String × V} (h : cell ∈ xs) : cell.1 ∈ places xs :=
  List.mem_map_of_mem h

theorem first_append : first (xs ++ ys) older = first xs (first ys older) := by
  cases xs <;> rfl

theorem last_append : last (xs ++ ys) newer = last ys (last xs newer) := by
  induction xs generalizing newer with
  | nil => rfl
  | cons cell xs ih => exact ih

/-- A chain with a cell has an oldest one. -/
theorem isNone_last {place : Nat} : (last xs (some place)).isNone = false := by
  induction xs generalizing place with
  | nil => rfl
  | cons cell xs ih => exact ih

/-- Runs are put together at the links between them. -/
theorem run_append : Run items newer (xs ++ ys) older ↔
    Run items newer xs (first ys older) ∧ Run items (last xs newer) ys older := by
  induction xs generalizing newer with
  | nil => exact (iff_of_eq (true_and _)).symm
  | cons cell xs ih =>
    rw [List.cons_append, Run, Run, ih, first_append, and_assoc]
    rfl

/-- A run looks at its own items only. -/
theorem Run.congr (h : Run items newer xs older)
    (hsame : ∀ place ∈ places xs, items'[place]? = items[place]?) : Run items' newer xs older := by
  induction xs generalizing newer with
  | nil => trivial
  | cons cell xs ih =>
    refine ⟨?_, ih h.2 fun place hplace => hsame place (List.mem_cons_of_mem _ hplace)⟩
    rw [hsame _ List.mem_cons_self]
    exact h.1

theorem Run.mem_items (h : Run items newer xs older) : ∀ place ∈ places xs, place ∈ items := by
  induction xs generalizing newer with
  | nil => simp [places]
  | cons cell xs ih =>
    refine List.forall_mem_cons.mpr ⟨?_, ih h.2⟩
    rw [Std.HashMap.mem_iff_isSome_getElem?, h.1]
    rfl

theorem getElem?_insert_self {place : Nat} : (items.insert place x)[place]? = some x := by
  simp

theorem getElem?_insert_of_ne {place other : Nat} (h : other ≠ place) :
    (items.insert place x)[other]? = items[other]? := by
  simp [Std.HashMap.getElem?_insert, Ne.symm h]

/-- Another item does not matter to it. -/
theorem Run.insert (h : Run items newer xs older) {place : Nat} (hnot : place ∉ places xs)
    (x : ChainItem V) : Run (items.insert place x) newer xs older :=
  h.congr fun _ hp => getElem?_insert_of_ne fun heq => hnot (heq ▸ hp)

end Runs

/-! ## Changing a link -/

variable {c : Chain V} {cells xs ys : List (Nat × String × V)}
  {place : Nat} {key : String} {value : V}

theorem item_eq_ok (h : c.items[place]? = some x) : c.item place = .ok x := by
  rw [item, h]

/-- An item that is there can be changed. -/
theorem amend_eq_ok (h : c.items[place]? = some x) (f : ChainItem V → ChainItem V) :
    c.amend place f = .ok { c with items := c.items.insert place (f x) } := by
  rw [amend, item_eq_ok h]
  rfl

/-- The oldest cell of a run gets another neighbour, and no other cell changes. -/
theorem linkOlder_run {older : Option Nat} (hrun : Run c.items none xs older)
    (hnodup : (places xs).Nodup) (hnewest : c.newest = first xs older) (older' : Option Nat) :
    ∃ items, c.linkOlder (last xs none) older' = .ok { c with items, newest := first xs older' } ∧
      Run items none xs older' ∧ ∀ p ∉ places xs, items[p]? = c.items[p]? := by
  obtain rfl | ⟨zs, ⟨p, k, v⟩, rfl⟩ := xs.eq_nil_or_concat'
  · exact ⟨c.items, rfl, trivial, fun _ _ => rfl⟩
  · obtain ⟨hzs, hp, -⟩ := run_append.mp hrun
    have hpzs : p ∉ places zs := by
      rw [places, List.map_append] at hnodup
      exact fun hmem => List.disjoint_of_nodup_append hnodup hmem List.mem_cons_self
    have hfirst : first (zs ++ [(p, k, v)]) older' = c.newest := by
      rw [hnewest, first_append, first_append]
      rfl
    refine ⟨_, ?_, run_append.mpr ⟨hzs.insert hpzs _, getElem?_insert_self, trivial⟩,
      fun q hq => getElem?_insert_of_ne ?_⟩
    · rw [last_append, hfirst]
      exact amend_eq_ok hp _
    · rintro rfl
      exact hq (mem_places (List.mem_append_right _ List.mem_cons_self))

/-- So does the newest one. -/
theorem linkNewer_run {newer : Option Nat} (hrun : Run c.items newer ys none)
    (hnodup : (places ys).Nodup) (holdest : c.oldest = last ys newer) (newer' : Option Nat) :
    ∃ items, c.linkNewer (first ys none) newer' = .ok { c with items, oldest := last ys newer' } ∧
      Run items newer' ys none ∧ ∀ p ∉ places ys, items[p]? = c.items[p]? := by
  cases ys with
  | nil => exact ⟨c.items, rfl, trivial, fun _ _ => rfl⟩
  | cons cell zs =>
    obtain ⟨p, k, v⟩ := cell
    obtain ⟨hp, hzs⟩ := hrun
    have hpzs : p ∉ places zs := (List.nodup_cons.mp hnodup).1
    have hlast : last ((p, k, v) :: zs) newer' = c.oldest := holdest.symm
    refine ⟨_, ?_, ⟨getElem?_insert_self, hzs.insert hpzs _⟩, fun q hq => getElem?_insert_of_ne ?_⟩
    · rw [hlast]
      exact amend_eq_ok hp _
    · rintro rfl
      exact hq List.mem_cons_self

/-! ## Chains -/

/-- The links of the chain say one thing from both ends: these cells, the newest first. -/
structure Spells (c : Chain V) (cells : List (Nat × String × V)) : Prop where
  run : Run c.items none cells none
  nodup : (places cells).Nodup
  newest : c.newest = first cells none
  oldest : c.oldest = last cells none
  length : c.length = cells.length
  used : ∀ place ∈ places cells, place < c.unused

theorem spells_nil : ({} : Chain V).Spells [] where
  run := trivial
  nodup := List.nodup_nil
  newest := rfl
  oldest := rfl
  length := rfl
  used := by simp [places]

/-- The place of a cell is not that of any other. -/
theorem nodup_middle (h : (places (xs ++ (place, key, value) :: ys)).Nodup) :
    place ∉ places xs ∧ place ∉ places ys ∧ (places (xs ++ ys)).Nodup ∧
      ∀ p ∈ places xs, p ∉ places ys := by
  rw [places, List.map_append, List.map_cons, List.nodup_middle, List.nodup_cons,
    List.mem_append, not_or] at h
  obtain ⟨⟨hxs, hys⟩, hnodup⟩ := h
  refine ⟨hxs, hys, ?_, fun p hp hq => List.disjoint_of_nodup_append hnodup hp hq⟩
  rwa [places, List.map_append]

/-- What stands in the middle of a chain, and what around it. -/
theorem Spells.middle (h : c.Spells (xs ++ (place, key, value) :: ys)) :
    Run c.items none xs (some place) ∧
      c.items[place]? = some ⟨key, value, last xs none, first ys none⟩ ∧
      Run c.items (some place) ys none := by
  obtain ⟨hxs, hplace, hys⟩ := run_append.mp h.run
  exact ⟨hxs, hplace, hys⟩

/-- An item is taken out. -/
theorem Spells.unlink (h : c.Spells (xs ++ (place, key, value) :: ys)) :
    ∃ c', c.unlink place = .ok c' ∧ c'.Spells (xs ++ ys) ∧
      c'.items[place]? = some { key, value } ∧ c'.unused = c.unused := by
  obtain ⟨hxs, hplace, hys⟩ := h.middle
  obtain ⟨hnotxs, hnotys, hnodup, hdisjoint⟩ := nodup_middle h.nodup
  have hsplit : (places xs).Nodup ∧ (places ys).Nodup := by
    rw [places, List.map_append] at hnodup
    exact ⟨hnodup.of_append_left, hnodup.of_append_right⟩
  -- the newer cells get what follows the item for their neighbour, the older ones what precedes it
  obtain ⟨items₁, h₁, hxs₁, hframe₁⟩ := linkOlder_run hxs hsplit.1
    (h.newest.trans first_append) (first ys none)
  have hys₁ : Run items₁ (some place) ys none :=
    hys.congr fun p hp => hframe₁ p fun hpx => hdisjoint p hpx hp
  obtain ⟨items₂, h₂, hys₂, hframe₂⟩ := linkNewer_run
    (c := { c with items := items₁, newest := first xs (first ys none) }) hys₁ hsplit.2
    (h.oldest.trans last_append) (last xs none)
  have hplace₂ : items₂[place]? = some ⟨key, value, last xs none, first ys none⟩ := by
    rw [hframe₂ place hnotys]
    exact (hframe₁ place hnotxs).trans hplace
  refine ⟨{ c with
      items := items₂.insert place { key, value }
      newest := first xs (first ys none)
      oldest := last ys (last xs none)
      length := c.length - 1 }, ?_,
    ⟨run_append.mpr ⟨?_, ?_⟩, hnodup, first_append.symm, last_append.symm, ?_, ?_⟩,
    getElem?_insert_self, rfl⟩
  · -- no step meets a place without an item
    rw [Chain.unlink, item_eq_ok hplace]
    show (c.linkOlder (last xs none) (first ys none) >>= _) = _
    rw [h₁]
    show (linkNewer _ (first ys none) (last xs none) >>= _) = _
    rw [h₂]
    show (amend _ place _ >>= _) = _
    rw [amend_eq_ok hplace₂]
    rfl
  · exact (hxs₁.congr fun p hp => hframe₂ p (hdisjoint p hp)).insert hnotxs _
  · exact hys₂.insert hnotys _
  · show c.length - 1 = _
    rw [h.length]
    simp
  · intro p hp
    refine h.used p ?_
    simp only [places, List.map_append, List.map_cons, List.mem_append, List.mem_cons] at hp ⊢
    exact hp.imp_right .inr

/-- An item is put in as the newest. -/
theorem Spells.push (h : c.Spells cells) (hnot : place ∉ places cells) (hused : place < c.unused)
    {newer older : Option Nat} (hitem : c.items[place]? = some ⟨key, value, newer, older⟩) :
    ∃ c', c.push place = .ok c' ∧ c'.Spells ((place, key, value) :: cells) ∧
      c'.unused = c.unused := by
  obtain ⟨items, hlink, hrun, hsame⟩ := linkNewer_run
    (c := { c with items := c.items.insert place ⟨key, value, none, c.newest⟩ })
    (h.run.insert hnot _) h.nodup h.oldest (some place)
  refine ⟨{ c with
      items
      newest := some place
      oldest := last cells (some place)
      length := c.length + 1 }, ?_,
    ⟨⟨?_, hrun⟩, List.nodup_cons.mpr ⟨hnot, h.nodup⟩, rfl, rfl, ?_, ?_⟩, rfl⟩
  · have hnewest := h.newest
    have holdest := h.oldest
    rw [Chain.push, amend_eq_ok hitem]
    cases cells with
    | nil =>
      -- the chain is empty, so its oldest end is set
      cases hlink
      simp only [hnewest, holdest, first, last]
      rfl
    | cons cell cells =>
      -- the oldest end stays the one that is there
      have hamend : amend _ cell.1 _ = _ := hlink
      rw [hnewest] at hamend ⊢
      simp only [first] at hamend ⊢
      show (amend _ cell.1 _ >>= _) = _
      rw [hamend]
      simp only [bind, Except.bind, last, isNone_last]
      rfl
  · show items[place]? = _
    rw [hsame place hnot, ← h.newest]
    exact getElem?_insert_self
  · exact congrArg (· + 1) h.length
  · exact List.forall_mem_cons.mpr ⟨hused, h.used⟩

/-- The newest item stays where it is; any other is taken out and put in again. -/
theorem Spells.renew (h : c.Spells (xs ++ (place, key, value) :: ys)) :
    ∃ c', c.renew place = .ok c' ∧ c'.Spells ((place, key, value) :: (xs ++ ys)) := by
  obtain ⟨hnotxs, hnotys, -, -⟩ := nodup_middle h.nodup
  rw [Chain.renew]
  split
  next hnewest =>
    cases xs with
    | nil => exact ⟨c, rfl, h⟩
    | cons cell xs =>
      rw [h.newest] at hnewest
      exact absurd (Option.some.inj hnewest) fun heq => hnotxs (heq ▸ List.mem_cons_self)
  next =>
    obtain ⟨c₁, h₁, hspells, hitem, hunused⟩ := h.unlink
    have hused : place < c₁.unused := by
      rw [hunused]
      exact h.used place (mem_places (List.mem_append_right _ List.mem_cons_self))
    obtain ⟨c₂, h₂, hspells₂, -⟩ := hspells.push
      (by simpa only [places, List.map_append, List.mem_append, not_or] using ⟨hnotxs, hnotys⟩)
      hused hitem
    refine ⟨c₂, ?_, hspells₂⟩
    rw [h₁]
    exact h₂

/-- An item outside the chain can be forgotten. -/
theorem Spells.erase (h : c.Spells cells) (hnot : place ∉ places cells) :
    ({ c with items := c.items.erase place } : Chain V).Spells cells where
  run := h.run.congr fun p hp => by
    rw [Std.HashMap.getElem?_erase, if_neg]
    simpa using fun hpp : place = p => hnot (hpp ▸ hp)
  nodup := h.nodup
  newest := h.newest
  oldest := h.oldest
  length := h.length
  used := h.used

/-- An item is removed for good. -/
theorem Spells.remove (h : c.Spells (xs ++ (place, key, value) :: ys)) :
    ∃ c', c.remove place = .ok c' ∧ c'.Spells (xs ++ ys) := by
  obtain ⟨c₁, h₁, hspells, -, -⟩ := h.unlink
  obtain ⟨hnotxs, hnotys, -, -⟩ := nodup_middle h.nodup
  refine ⟨{ c₁ with items := c₁.items.erase place }, ?_, hspells.erase ?_⟩
  · rw [Chain.remove, h₁]
    rfl
  · simpa only [places, List.map_append, List.mem_append, not_or] using ⟨hnotxs, hnotys⟩

/-- A new item gets an unused place. -/
theorem Spells.add (h : c.Spells cells) (key : String) (value : V) :
    ∃ c', c.add key value = .ok (c.unused, c') ∧ c'.Spells ((c.unused, key, value) :: cells) := by
  have hnot : c.unused ∉ places cells := fun hmem => Nat.lt_irrefl _ (h.used _ hmem)
  have hplaced : Chain.Spells { c with
      items := c.items.insert c.unused { key, value }, unused := c.unused + 1 } cells :=
    { run := h.run.insert hnot _
      nodup := h.nodup
      newest := h.newest
      oldest := h.oldest
      length := h.length
      used := fun p hp => Nat.lt_succ_of_lt (h.used p hp) }
  obtain ⟨c', hpush, hspells, -⟩ :=
    hplaced.push hnot (Nat.lt_succ_self _) getElem?_insert_self
  refine ⟨c', ?_, hspells⟩
  rw [Chain.add]
  show (Chain.push _ c.unused >>= _) = _
  rw [hpush]
  rfl

/-- The value of an item is changed where it stands. -/
theorem Spells.revalue (h : c.Spells (xs ++ (place, key, value) :: ys)) (value' : V) :
    ∃ c', c.amend place ({ · with value := value' }) = .ok c' ∧
      c'.Spells (xs ++ (place, key, value') :: ys) := by
  obtain ⟨hxs, hplace, hys⟩ := h.middle
  obtain ⟨hnotxs, hnotys, -, -⟩ := nodup_middle h.nodup
  have hplaces : places (xs ++ (place, key, value') :: ys) =
      places (xs ++ (place, key, value) :: ys) := by
    simp [places]
  refine ⟨_, amend_eq_ok hplace _, 
    ⟨run_append.mpr ⟨?_, getElem?_insert_self, ?_⟩, ?_, ?_, ?_, ?_, ?_⟩⟩
  · exact hxs.insert hnotxs _
  · exact hys.insert hnotys _
  · rw [hplaces]
    exact h.nodup
  · refine h.newest.trans ?_
    rw [first_append, first_append]
    rfl
  · refine h.oldest.trans ?_
    rw [last_append, last_append]
    rfl
  · exact h.length.trans (by simp)
  · rw [hplaces]
    exact h.used

/-! ## Reading a chain -/

/-- Along the links to older cells the entries are read in order. -/
theorem follow_older {newer : Option Nat} {fuel : Nat} (h : Run c.items newer cells none)
    (hfuel : cells.length ≤ fuel) :
    c.follow ChainItem.older fuel (first cells none) = .ok (cells.map Prod.snd) := by
  induction cells generalizing newer fuel with
  | nil => cases fuel <;> rfl
  | cons cell cells ih =>
    cases fuel with
    | zero => cases hfuel
    | succ fuel =>
      obtain ⟨hcell, hrest⟩ := h
      rw [first, follow, item_eq_ok hcell]
      show (c.follow _ fuel (first cells none) >>= _) = _
      rw [ih hrest (Nat.le_of_succ_le_succ hfuel)]
      rfl

/-- Along the links to newer cells they are read backwards. -/
theorem follow_newer {older : Option Nat} {fuel : Nat} (h : Run c.items none cells older)
    (hfuel : cells.length ≤ fuel) :
    c.follow ChainItem.newer fuel (last cells none) = .ok (cells.map Prod.snd).reverse := by
  -- the last cell comes first, so the cells are taken off from behind
  induction cells using List.reverseRecOn generalizing older fuel with
  | nil => cases fuel <;> rfl
  | append_singleton cells cell ih =>
    obtain ⟨hrest, hcell, -⟩ := run_append.mp h
    rw [List.length_append] at hfuel
    cases fuel with
    | zero => cases hfuel
    | succ fuel =>
      rw [last_append, last, last, follow, item_eq_ok hcell]
      show (c.follow _ fuel (last cells none) >>= _) = _
      rw [ih hrest (Nat.le_of_succ_le_succ hfuel), List.map_append, List.reverse_append]
      rfl

theorem Spells.length_le (h : c.Spells cells) : cells.length ≤ c.items.size := by
  have hsub : places cells ⊆ c.items.keys := fun p hp =>
    Std.HashMap.mem_keys.mpr (h.run.mem_items p hp)
  have hle := (h.nodup.subperm hsub).length_le
  rwa [places, List.length_map, Std.HashMap.length_keys] at hle

/-- The entries, read from the newest on. -/
theorem Spells.newestFirst (h : c.Spells cells) : c.newestFirst = .ok (cells.map Prod.snd) := by
  rw [Chain.newestFirst, h.newest]
  exact follow_older h.run h.length_le

/-- The entries, read from the oldest on. -/
theorem Spells.oldestFirst (h : c.Spells cells) :
    c.oldestFirst = .ok (cells.map Prod.snd).reverse := by
  rw [Chain.oldestFirst, h.oldest]
  exact follow_newer h.run h.length_le

end MicroFlow.Chain
