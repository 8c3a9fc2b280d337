import MicroFlow.Proofs.Cache.Chain
import MicroFlow.Proofs.Cache.Recency

/-!
# A linked cache is a cache ordered by recency

A linked cache stands for a plain one when its chain spells the entries, its index leads from every
key to the cell of that key and from no other key anywhere, and the capacity and the counters are
the same (`LinkedCache.Represents`).  Every operation succeeds on such a cache, answers as the
operation on the plain cache does, and the results stand for each other again.
-/

namespace MicroFlow

variable {V : Type}

namespace LinkedCache

def keysOf (cells : List (Nat × String × V)) : List String := cells.map fun cell => cell.2.1

theorem map_fst_snd (cells : List (Nat × String × V)) :
    (cells.map Prod.snd).map Prod.fst = keysOf cells := by
  rw [List.map_map]
  rfl

variable {key : String} {place : Nat} {value : V}

theorem mem_keysOf {cells : List (Nat × String × V)} :
    key ∈ keysOf cells ↔ ∃ place value, (place, key, value) ∈ cells := by
  constructor
  · intro h
    obtain ⟨⟨place, key, value⟩, hcell, rfl⟩ := List.mem_map.mp h
    exact ⟨place, value, hcell⟩
  · rintro ⟨place, value, hcell⟩
    exact List.mem_map.mpr ⟨_, hcell, rfl⟩

/-- The chain spells the cells, and the index leads to them. -/
structure Lists (c : LinkedCache V) (cells : List (Nat × String × V)) : Prop where
  chain : c.chain.Spells cells
  index : ∀ key place, c.index[key]? = some place ↔ ∃ value, (place, key, value) ∈ cells

section Lists

variable {c : LinkedCache V} {cells : List (Nat × String × V)}

/-- The index leads to one place only, so a key has one cell. -/
theorem Lists.nodup_keys (h : c.Lists cells) : (keysOf cells).Nodup := by
  have hplace := List.inj_on_of_nodup_map h.chain.nodup
  refine List.Nodup.map_on ?_ (List.Nodup.of_map _ h.chain.nodup)
  rintro ⟨p, k, v⟩ hp ⟨q, l, w⟩ hq hkey
  obtain rfl : k = l := hkey
  -- the index leads from the key to both places
  have hpq := ((h.index k p).mpr ⟨v, hp⟩).symm.trans ((h.index k q).mpr ⟨w, hq⟩)
  exact hplace hp hq (Option.some.inj hpq)

/-- A key either has no cell, or the index leads to the only one that it has. -/
theorem Lists.find (h : c.Lists cells) (key : String) :
    (c.index[key]? = none ∧ key ∉ keysOf cells) ∨
      ∃ place value xs ys, c.index[key]? = some place ∧
        cells = xs ++ (place, key, value) :: ys ∧ key ∉ keysOf xs ∧ key ∉ keysOf ys := by
  cases hindex : c.index[key]? with
  | none =>
    refine .inl ⟨rfl, fun hmem => ?_⟩
    obtain ⟨place, value, hcell⟩ := mem_keysOf.mp hmem
    rw [(h.index key place).mpr ⟨value, hcell⟩] at hindex
    cases hindex
  | some place =>
    obtain ⟨value, hcell⟩ := (h.index key place).mp hindex
    obtain ⟨xs, ys, rfl⟩ := List.append_of_mem hcell
    have hnodup := h.nodup_keys
    rw [keysOf, List.map_append, List.map_cons, List.nodup_middle, List.nodup_cons,
      List.mem_append, not_or] at hnodup
    exact .inr ⟨place, value, xs, ys, rfl, rfl, hnodup.1⟩

/-- A new key in the index leads to its cell. -/
theorem index_cons {index : Std.HashMap String Nat}
    (h : ∀ k ≠ key, ∀ p, index[k]? = some p ↔ ∃ v, (p, k, v) ∈ cells) (hnot : key ∉ keysOf cells) :
    ∀ k p, (index.insert key place)[k]? = some p ↔
      ∃ v, (p, k, v) ∈ (place, key, value) :: cells := by
  intro k p
  by_cases hk : k = key
  · subst hk
    have hno : ∀ v, (p, k, v) ∉ cells := fun v hv => hnot (mem_keysOf.mpr ⟨p, v, hv⟩)
    simp [hno, eq_comm]
  · rw [Std.HashMap.getElem?_insert, if_neg (by simpa using Ne.symm hk), h k hk p]
    simp [hk]

/-- The index without the key of a cell. -/
theorem index_erase {index : Std.HashMap String Nat}
    {xs ys : List (Nat × String × V)} (hxs : key ∉ keysOf xs) (hys : key ∉ keysOf ys)
    (h : ∀ k p, index[k]? = some p ↔ ∃ v, (p, k, v) ∈ xs ++ (place, key, value) :: ys) :
    ∀ k p, (index.erase key)[k]? = some p ↔ ∃ v, (p, k, v) ∈ xs ++ ys := by
  intro k p
  by_cases hk : k = key
  · subst hk
    have hno : ∀ v, (p, k, v) ∉ xs ++ ys := fun v hv =>
      (List.mem_append.mp hv).elim (fun hv => hxs (mem_keysOf.mpr ⟨p, v, hv⟩))
        fun hv => hys (mem_keysOf.mpr ⟨p, v, hv⟩)
    simp only [Std.HashMap.getElem?_erase_self, hno, exists_false, reduceCtorEq]
  · rw [Std.HashMap.getElem?_erase, if_neg (by simpa using Ne.symm hk), h k p]
    simp [hk]

/-- A new cell for a key that has none, or whose cell is gone from the chain. -/
theorem insert_eq_ok (hchain : c.chain.Spells cells) (value : V)
    (hindex : ∀ k ≠ key, ∀ p, c.index[k]? = some p ↔ ∃ v, (p, k, v) ∈ cells)
    (hnot : key ∉ keysOf cells) :
    ∃ place index chain, c.insert key value = .ok { c with index, chain } ∧
      ({ c with index, chain } : LinkedCache V).Lists ((place, key, value) :: cells) := by
  obtain ⟨chain, hadd, hspells⟩ := hchain.add key value
  refine ⟨_, _, chain, ?_, hspells, index_cons hindex hnot⟩
  rw [insert, hadd]
  rfl

/-- The oldest entry is evicted, and its key leaves the index. -/
theorem Lists.evict {place : Nat} {key : String} {value : V}
    (h : c.Lists (cells ++ [(place, key, value)])) :
    ∃ index chain, c.evict = .ok ((key, value),
      { c with index, chain, evictions := c.evictions + 1 }) ∧
      ({ c with index, chain, evictions := c.evictions + 1 } : LinkedCache V).Lists cells := by
  have holdest : c.chain.oldest = some place := by
    rw [h.chain.oldest, Chain.last_append]
    rfl
  obtain ⟨chain, hremove, hspells⟩ := h.chain.remove
  obtain ⟨-, hitem, -⟩ := h.chain.middle
  have hnot : key ∉ keysOf cells := by
    have hnodup := h.nodup_keys
    rw [keysOf, List.map_append] at hnodup
    exact fun hmem => List.disjoint_of_nodup_append hnodup hmem List.mem_cons_self
  rw [List.append_nil] at hspells
  refine ⟨c.index.erase key, chain, ?_, hspells, ?_⟩
  · rw [LinkedCache.evict, holdest]
    show (c.chain.item place >>= _) = _
    rw [Chain.item_eq_ok hitem]
    show (c.chain.remove place >>= _) = _
    rw [hremove]
    rfl
  · intro k p
    rw [← List.append_nil cells]
    exact index_erase hnot (by simp [keysOf]) h.index k p

/-- Several evictions take the oldest entries one by one. -/
theorem Lists.evictMany {n : Nat} (h : c.Lists cells) (hn : n ≤ cells.length) :
    let kept := cells.length - n
    ∃ index chain, c.evictMany n = .ok (((cells.map Prod.snd).drop kept).reverse,
        { c with index, chain, evictions := c.evictions + n }) ∧
      ({ c with index, chain, evictions := c.evictions + n } : LinkedCache V).Lists
        (cells.take kept) := by
  induction n generalizing c cells with
  | zero =>
    refine ⟨c.index, c.chain, ?_, ?_⟩
    · rw [Nat.sub_zero, ← List.length_map (f := Prod.snd), List.drop_length]
      rfl
    · rw [Nat.sub_zero, List.take_length]
      exact ⟨h.chain, h.index⟩
  | succ n ih =>
    obtain rfl | ⟨xs, ⟨place, key, value⟩, rfl⟩ := cells.eq_nil_or_concat'
    · cases hn
    · rw [List.length_append, List.length_singleton] at hn ⊢
      -- the first eviction takes the last cell, the others act on the cells before it
      obtain ⟨index₁, chain₁, hevict, hlists⟩ := h.evict
      obtain ⟨index, chain, hmany, hkept⟩ := ih hlists (Nat.le_of_succ_le_succ hn)
      have hsub : xs.length + 1 - (n + 1) = xs.length - n := Nat.add_sub_add_right _ _ _
      refine ⟨index, chain, ?_, ?_⟩
      · rw [LinkedCache.evictMany, hevict]
        show (LinkedCache.evictMany n _ >>= _) = _
        rw [hmany, hsub, List.map_append, List.drop_append_of_le_length (by simp),
          List.reverse_append]
        show Except.ok _ = Except.ok _
        rw [Nat.add_assoc, Nat.add_comm 1 n]
        rfl
      · rw [hsub, List.take_append_of_le_length (Nat.sub_le _ _)]
        exact ⟨hkept.chain, hkept.index⟩

end Lists

/-! ## Linked and plain caches -/

/-- The linked cache stands for the plain one. -/
structure Represents (c : LinkedCache V) (r : Recency V) : Prop where
  lists : ∃ cells, c.Lists cells ∧ cells.map Prod.snd = r.entries
  capacity : c.capacity = r.capacity
  hits : c.hits = r.hits
  misses : c.misses = r.misses
  evictions : c.evictions = r.evictions

theorem represents_empty (n : Int) :
    ({ capacity := n } : LinkedCache V).Represents { capacity := n } where
  lists := ⟨[], ⟨Chain.spells_nil, by simp⟩, rfl⟩
  capacity := rfl
  hits := rfl
  misses := rfl
  evictions := rfl

section Represents

variable {c : LinkedCache V} {r : Recency V}

/-- The chain is the entries from both ends, and the index holds the keys of the entries. -/
theorem Represents.reads (h : c.Represents r) :
    c.chain.newestFirst = .ok r.entries ∧ c.chain.oldestFirst = .ok r.oldestFirst ∧
      c.index.keys.Perm r.keys ∧ c.chain.length = r.size := by
  obtain ⟨cells, hlists, hentries⟩ := h.lists
  have hkeys : keysOf cells = r.keys := by
    rw [← map_fst_snd, hentries]
    rfl
  refine ⟨hentries ▸ hlists.chain.newestFirst, ?_, ?_, ?_⟩
  · rw [hlists.chain.oldestFirst, hentries]
    rfl
  · rw [List.perm_ext_iff_of_nodup Std.HashMap.nodup_keys (hkeys ▸ hlists.nodup_keys)]
    intro key
    rw [Std.HashMap.mem_keys, Std.HashMap.mem_iff_isSome_getElem?, ← hkeys, mem_keysOf,
      Option.isSome_iff_exists]
    simp only [hlists.index]
  · rw [hlists.chain.length, Recency.size, ← hentries, List.length_map]

/-- A key either has no entry on either side, or the cell to which the index leads holds it. -/
theorem Represents.find (h : c.Represents r) (key : String) :
    (c.index[key]? = none ∧ r.find? key = none ∧
        ∃ cells, c.Lists cells ∧ cells.map Prod.snd = r.entries ∧ key ∉ keysOf cells) ∨
      ∃ place value xs ys, c.index[key]? = some place ∧ r.find? key = some value ∧
        c.Lists (xs ++ (place, key, value) :: ys) ∧ key ∉ keysOf xs ∧ key ∉ keysOf ys ∧
        Recency.without key r.entries = (xs ++ ys).map Prod.snd := by
  obtain ⟨cells, hlists, hentries⟩ := h.lists
  obtain ⟨hnone, hnot⟩ | ⟨place, value, xs, ys, hsome, rfl, hxs, hys⟩ := hlists.find key
  · refine .inl ⟨hnone, Recency.find?_eq_none_iff.mpr ?_, cells, hlists, hentries, hnot⟩
    rwa [Recency.keys, ← hentries, map_fst_snd]
  · have hsplit : r.entries = xs.map Prod.snd ++ (key, value) :: ys.map Prod.snd := by
      rw [← hentries, List.map_append, List.map_cons]
    refine .inr ⟨place, value, xs, ys, hsome, ?_, hlists, hxs, hys, ?_⟩
    · refine List.lookup_eq_some_iff.mpr ⟨_, _, hsplit, fun e he => ?_⟩
      rw [bne_iff_ne]
      rintro rfl
      refine hxs ?_
      rw [← map_fst_snd]
      exact List.mem_map_of_mem he
    · rw [hsplit, List.map_append]
      exact Recency.without_middle (by rwa [map_fst_snd]) (by rwa [map_fst_snd])

/-- A cell that is moved to the front is still the one of its key. -/
theorem Lists.moved {value' : V}
    {xs ys : List (Nat × String × V)} (h : c.Lists (xs ++ (place, key, value) :: ys)) :
    ∀ k p, c.index[k]? = some p ↔ ∃ v, (p, k, v) ∈ (place, key, value') :: (xs ++ ys) := by
  intro k p
  rw [h.index k p]
  simp only [List.mem_append, List.mem_cons, Prod.mk.injEq]
  constructor
  · rintro ⟨v, hv | ⟨rfl, rfl, -⟩ | hv⟩
    · exact ⟨v, .inr (.inl hv)⟩
    · exact ⟨value', .inl ⟨rfl, rfl, rfl⟩⟩
    · exact ⟨v, .inr (.inr hv)⟩
  · rintro ⟨v, ⟨rfl, rfl, -⟩ | hv | hv⟩
    · exact ⟨value, .inr (.inl ⟨rfl, rfl, rfl⟩)⟩
    · exact ⟨v, .inl hv⟩
    · exact ⟨v, .inr (.inr hv)⟩

/-- A lookup answers alike, and a hit moves the entry to the front in both. -/
theorem Represents.get (h : c.Represents r) (key : String) :
    ∃ c', c.get key = .ok ((r.get key).1, c') ∧ c'.Represents (r.get key).2 := by
  obtain ⟨hnone, hfind, cells, hlists, hentries, -⟩ |
      ⟨place, value, xs, ys, hsome, hfind, hlists, -, -, hwithout⟩ := h.find key
  · rw [LinkedCache.get, hnone, Recency.get, hfind]
    exact ⟨_, rfl, ⟨cells, ⟨hlists.chain, hlists.index⟩, hentries⟩, h.capacity, h.hits,
      congrArg (· + 1) h.misses, h.evictions⟩
  · obtain ⟨chain, hrenew, hspells⟩ := hlists.chain.renew
    refine ⟨{ c with chain, hits := c.hits + 1 }, ?_, ?_⟩
    · rw [LinkedCache.get, hsome, Recency.get, hfind]
      show (c.chain.renew place >>= _) = _
      rw [hrenew]
      show (chain.item place >>= _) = _
      rw [Chain.item_eq_ok hspells.run.1]
      rfl
    · rw [Recency.get, hfind]
      refine ⟨⟨_, ⟨hspells, hlists.moved⟩, ?_⟩, h.capacity, congrArg (· + 1) h.hits, h.misses,
        h.evictions⟩
      show _ = (key, value) :: Recency.without key r.entries
      rw [hwithout, List.map_cons]

/-- Both caches evict the same entries. -/
theorem Represents.makeRoom {es : List (String × V)} (h : c.Represents { r with entries := es }) :
    ∃ c', c.makeRoom = .ok (r.dropped es, c') ∧ c'.Represents (r.trim es) := by
  obtain ⟨cells, hlists, rfl⟩ := h.lists
  have hcapacity : c.capacity = r.capacity := h.capacity
  -- what is too much on one side is what does not fit on the other
  have hsurplus : c.surplus = cells.length - r.room cells.length := by
    rw [surplus, Recency.room, hlists.chain.length, hcapacity]
    split <;> omega
  have hkept : cells.length - c.surplus = r.room cells.length := by
    have hle : r.room cells.length ≤ cells.length := Recency.room_le
    omega
  obtain ⟨index, chain, hmany, hleft⟩ := hlists.evictMany (n := c.surplus) (by omega)
  rw [hkept] at hmany hleft
  refine ⟨_, ?_, ⟨⟨_, hleft, ?_⟩, hcapacity, h.hits, h.misses, ?_⟩⟩
  · rw [LinkedCache.makeRoom, hmany, Recency.dropped, List.length_map]
  · show _ = (cells.map Prod.snd).take (r.room (cells.map Prod.snd).length)
    rw [List.length_map, List.map_take]
  · show c.evictions + c.surplus = r.evictions + _
    have hevictions : c.evictions = r.evictions := h.evictions
    rw [hevictions, hsurplus, List.length_map]

/-- Storing is alike, with the same evictions. -/
theorem Represents.set (h : c.Represents r) (key : String) (value : V) :
    ∃ c', c.set key value = .ok (r.evictedBy key value, c') ∧ c'.Represents (r.set key value) := by
  obtain ⟨hnone, hfind, cells, hlists, hentries, hnot⟩ |
      ⟨place, old, xs, ys, hsome, hfind, hlists, -, -, hwithout⟩ := h.find key
  · obtain ⟨place, index, chain, hinsert, hinserted⟩ :=
      insert_eq_ok hlists.chain value (fun k _ p => hlists.index k p) hnot
    have hnew : ({ c with index, chain } : LinkedCache V).Represents
        { r with entries := r.stored key value } := by
      refine ⟨⟨_, hinserted, ?_⟩, h.capacity, h.hits, h.misses, h.evictions⟩
      show _ = r.stored key value
      rw [Recency.stored_of_none hfind, List.map_cons, hentries]
    obtain ⟨c', hroom, hc'⟩ := hnew.makeRoom
    refine ⟨c', ?_, ?_⟩
    · rw [LinkedCache.set, hnone, Recency.evictedBy, hfind]
      show (c.insert key value >>= _) = _
      rw [hinsert]
      exact hroom
    · rw [Recency.set, hfind]
      exact hc'
  · -- the key is there: its item gets the value and is moved to the front
    obtain ⟨chain₁, hamend, hspells₁⟩ := hlists.chain.revalue value
    obtain ⟨chain, hrenew, hspells⟩ := hspells₁.renew
    refine ⟨{ c with chain }, ?_, ?_⟩
    · rw [LinkedCache.set, hsome, Recency.evictedBy, hfind]
      show (c.chain.amend place _ >>= _) = _
      rw [hamend]
      show (chain₁.renew place >>= _) = _
      rw [hrenew]
      rfl
    · rw [Recency.set, hfind]
      refine ⟨⟨_, ⟨hspells, hlists.moved⟩, ?_⟩, h.capacity, h.hits, h.misses, h.evictions⟩
      show _ = (key, value) :: Recency.without key r.entries
      rw [hwithout, List.map_cons]

/-- Removing is alike. -/
theorem Represents.delete (h : c.Represents r) (key : String) :
    ∃ c', c.delete key = .ok c' ∧ c'.Represents (r.delete key) := by
  obtain ⟨hnone, hfind, -⟩ | ⟨place, value, xs, ys, hsome, -, hlists, hxs, hys, hwithout⟩ :=
    h.find key
  · refine ⟨c, by rw [LinkedCache.delete, hnone], ?_⟩
    rw [Recency.delete, Recency.without_eq_self (Recency.find?_eq_none_iff.mp hfind)]
    exact h
  · obtain ⟨chain, hremove, hspells⟩ := hlists.chain.remove
    refine ⟨{ c with index := c.index.erase key, chain }, ?_, ?_⟩
    · rw [LinkedCache.delete, hsome]
      show (c.chain.remove place >>= _) = _
      rw [hremove]
      rfl
    · exact ⟨⟨_, ⟨hspells, index_erase hxs hys hlists.index⟩, hwithout.symm⟩, h.capacity, h.hits,
        h.misses, h.evictions⟩

/-- An emptied cache, whatever was in it. -/
theorem represents_clear (hcapacity : c.capacity = r.capacity) (hhits : c.hits = r.hits)
    (hmisses : c.misses = r.misses) (hevictions : c.evictions = r.evictions) :
    c.clear.Represents r.clear :=
  ⟨⟨[], ⟨Chain.spells_nil, by simp [LinkedCache.clear]⟩, rfl⟩, hcapacity, hhits, hmisses,
    hevictions⟩

/-- One entry of a list that is loaded. -/
theorem Represents.takeOver (h : c.Represents r) (entry : String × V) :
    ∃ c', c.takeOver entry = .ok c' ∧
      c'.Represents { r with entries := entry :: Recency.without entry.1 r.entries } := by
  obtain ⟨key, value⟩ := entry
  obtain ⟨hnone, hfind, cells, hlists, hentries, hnot⟩ |
      ⟨place, old, xs, ys, hsome, -, hlists, hxs, hys, hwithout⟩ := h.find key
  · obtain ⟨place, index, chain, hinsert, hinserted⟩ :=
      insert_eq_ok hlists.chain value (fun k _ p => hlists.index k p) hnot
    refine ⟨_, ?_, ⟨_, hinserted, ?_⟩, h.capacity, h.hits, h.misses, h.evictions⟩
    · rw [LinkedCache.takeOver, hnone, hinsert]
    · rw [Recency.without_eq_self (Recency.find?_eq_none_iff.mp hfind), List.map_cons, hentries]
  · obtain ⟨chain₁, hremove, hspells⟩ := hlists.chain.remove
    -- the index still leads from this key to the old place, and is right about all others
    have hindex : ∀ k ≠ key, ∀ p, c.index[k]? = some p ↔ ∃ v, (p, k, v) ∈ xs ++ ys := by
      intro k hk p
      rw [hlists.index k p]
      simp [hk]
    have hnot : key ∉ keysOf (xs ++ ys) := by
      rw [keysOf, List.map_append, List.mem_append, not_or]
      exact ⟨hxs, hys⟩
    obtain ⟨place', index, chain, hinsert, hinserted⟩ :=
      insert_eq_ok (c := { c with chain := chain₁ }) hspells value hindex hnot
    refine ⟨_, ?_, ⟨_, hinserted, ?_⟩, h.capacity, h.hits, h.misses, h.evictions⟩
    · rw [LinkedCache.takeOver, hsome]
      show (c.chain.remove place >>= _) = _
      rw [hremove]
      exact hinsert
    · rw [hwithout, List.map_cons]

/-- A list that is loaded replaces whatever stood in the cache: only the capacity and the counters
matter. -/
theorem represents_restore (hcapacity : c.capacity = r.capacity) (hhits : c.hits = r.hits)
    (hmisses : c.misses = r.misses) (hevictions : c.evictions = r.evictions)
    (es : List (String × V)) :
    ∃ c', c.restore es = .ok c' ∧ c'.Represents (r.restore es) := by
  have hfold : ∀ (es acc : List (String × V)) (c : LinkedCache V),
      c.Represents { r with entries := acc } → ∃ c', es.foldlM LinkedCache.takeOver c = .ok c' ∧
        c'.Represents
          { r with entries := es.foldl (fun acc e => e :: Recency.without e.1 acc) acc } := by
    intro es
    induction es with
    | nil => exact fun acc c h => ⟨c, rfl, h⟩
    | cons e es ih =>
      intro acc c h
      obtain ⟨c₁, htake, h₁⟩ := h.takeOver e
      obtain ⟨c₂, hrest, h₂⟩ := ih _ c₁ h₁
      refine ⟨c₂, ?_, h₂⟩
      rw [List.foldlM_cons, htake]
      exact hrest
  obtain ⟨c₁, hloaded, h₁⟩ := hfold es [] c.clear
    (represents_clear (r := r) hcapacity hhits hmisses hevictions)
  obtain ⟨c₂, hroom, h₂⟩ := h₁.makeRoom
  refine ⟨c₂, ?_, h₂⟩
  rw [LinkedCache.restore, hloaded]
  show (c₁.makeRoom >>= _) = _
  rw [hroom]
  rfl

end Represents

end LinkedCache

/-! ## Sequences of operations -/

namespace Recency

/-- Carries out an operation. -/
def perform (r : Recency V) : CacheOp V → CacheEvent V × Recency V
  | .get key => (.got key (r.get key).1, (r.get key).2)
  | .set key value => (.stored key value (r.evictedBy key value), r.set key value)
  | .delete key => (.deleted key, r.delete key)
  | .clear => (.cleared, r.clear)

/-- Carries out operations one after the other; gives what came of each. -/
def run (r : Recency V) : List (CacheOp V) → List (CacheEvent V) × Recency V
  | [] => ([], r)
  | op :: ops =>
    let rest := (r.perform op).2.run ops
    ((r.perform op).1 :: rest.1, rest.2)

end Recency

namespace LinkedCache

variable {c : LinkedCache V} {r : Recency V}

/-- Every operation is answered alike. -/
theorem Represents.perform (h : c.Represents r) (op : CacheOp V) :
    ∃ c', c.perform op = .ok ((r.perform op).1, c') ∧ c'.Represents (r.perform op).2 := by
  cases op with
  | get key =>
    obtain ⟨c', hget, hc'⟩ := h.get key
    exact ⟨c', by rw [LinkedCache.perform, hget]; rfl, hc'⟩
  | set key value =>
    obtain ⟨c', hset, hc'⟩ := h.set key value
    exact ⟨c', by rw [LinkedCache.perform, hset]; rfl, hc'⟩
  | delete key =>
    obtain ⟨c', hdelete, hc'⟩ := h.delete key
    exact ⟨c', by rw [LinkedCache.perform, hdelete]; rfl, hc'⟩
  | clear =>
    exact ⟨c.clear, rfl, represents_clear h.capacity h.hits h.misses h.evictions⟩

/-- So is a sequence of operations. -/
theorem Represents.run (h : c.Represents r) (ops : List (CacheOp V)) :
    ∃ c', c.run ops = .ok ((r.run ops).1, c') ∧ c'.Represents (r.run ops).2 := by
  induction ops generalizing c r with
  | nil => exact ⟨c, rfl, h⟩
  | cons op ops ih =>
    obtain ⟨c₁, hop, h₁⟩ := h.perform op
    obtain ⟨c₂, hrest, h₂⟩ := ih h₁
    refine ⟨c₂, ?_, h₂⟩
    rw [LinkedCache.run, hop]
    show (c₁.run ops >>= _) = _
    rw [hrest]
    rfl

end LinkedCache

end MicroFlow
