import MicroFlow.Proofs.Cache.Refinement

/-!
# A cache by its history

What a cache holds can be told from what was done with it, without looking inside: a value is
there when it was stored and nothing since has stored another one, removed or evicted it
(`Held`), and of two keys the older one is the one that was not used again after the
other (`UsedSince`).
-/

namespace MicroFlow

variable {V : Type}

/-! ## Histories -/

namespace CacheOp

/-- The operation looks a key up. -/
def isGet : CacheOp V → Bool
  | get _ => true
  | _ => false

end CacheOp

namespace CacheEvent

/-- What was done. -/
def op : CacheEvent V → CacheOp V
  | got key _ => .get key
  | stored key value _ => .set key value
  | deleted key => .delete key
  | cleared => .clear

/-- The event uses a key: a value was stored for it, or found. -/
def Uses (key : String) : CacheEvent V → Prop
  | got k found => k = key ∧ found ≠ none
  | stored k _ _ => k = key
  | _ => False

/-- The event puts an end to what was stored for a key: it stores, removes or evicts. -/
def Ends (key : String) : CacheEvent V → Prop
  | got _ _ => False
  | stored k _ evicted => k = key ∨ key ∈ evicted.map Prod.fst
  | deleted k => k = key
  | cleared => True

end CacheEvent

/-- The value was the last one stored for the key, and was not removed or evicted since. -/
def Held (history : List (CacheEvent V)) (key : String) (value : V) : Prop :=
  ∃ before evicted after, history = before ++ .stored key value evicted :: after ∧
    ∀ e ∈ after, ¬ e.Ends key

/-- The second key was used after the last use of the first. -/
def UsedSince (history : List (CacheEvent V)) (a b : String) : Prop :=
  ∃ before after, history = before ++ after ∧ (∃ e ∈ after, e.Uses b) ∧ ∀ e ∈ after, ¬ e.Uses a

section Histories

variable {history : List (CacheEvent V)} {e : CacheEvent V} {key a b : String} {value : V}

theorem held_nil : ¬ Held ([] : List (CacheEvent V)) key value := by
  rintro ⟨before, evicted, after, h, -⟩
  simp at h

/-- A value is held after an event if it is stored by it, or was held and the event does not end
that. -/
theorem held_concat : Held (history ++ [e]) key value ↔
    (∃ evicted, e = .stored key value evicted) ∨ Held history key value ∧ ¬ e.Ends key := by
  constructor
  · rintro ⟨before, evicted, after, h, hafter⟩
    obtain rfl | ⟨rest, x, rfl⟩ := after.eq_nil_or_concat'
    · exact .inl ⟨evicted, List.singleton_inj.mp (List.append_inj' h rfl).2⟩
    · rw [← List.cons_append, ← List.append_assoc] at h
      obtain ⟨hhistory, hx⟩ := List.append_inj' h rfl
      obtain rfl := List.singleton_inj.mp hx
      refine .inr ⟨⟨before, evicted, rest, hhistory, fun x hx => ?_⟩, ?_⟩
      · exact hafter x (List.mem_append_left _ hx)
      · exact hafter e (List.mem_append_right _ List.mem_cons_self)
  · rintro (⟨evicted, rfl⟩ | ⟨⟨before, evicted, after, rfl, hafter⟩, he⟩)
    · exact ⟨history, evicted, [], rfl, by simp⟩
    · refine ⟨before, evicted, after ++ [e], by simp, fun x hx => ?_⟩
      obtain hx | hx := List.mem_append.mp hx
      · exact hafter x hx
      · exact List.mem_singleton.mp hx ▸ he

/-- A use of another key keeps the older one older. -/
theorem UsedSince.concat (h : UsedSince history a b) (he : ¬ e.Uses a) :
    UsedSince (history ++ [e]) a b := by
  obtain ⟨before, after, rfl, ⟨x, hx, hxb⟩, hafter⟩ := h
  refine ⟨before, after ++ [e], by simp, ⟨x, List.mem_append_left _ hx, hxb⟩, fun y hy => ?_⟩
  obtain hy | hy := List.mem_append.mp hy
  · exact hafter y hy
  · exact List.mem_singleton.mp hy ▸ he

theorem usedSince_concat (hb : e.Uses b) (ha : ¬ e.Uses a) : UsedSince (history ++ [e]) a b :=
  ⟨history, [e], rfl, ⟨e, List.mem_cons_self, hb⟩, by simpa using ha⟩

end Histories

/-! ## Caches that follow a history -/

namespace Recency

/-- The cache holds what the history says, in the order of the last use, and counts it. -/
structure Follows (history : List (CacheEvent V)) (r : Recency V) : Prop where
  tidy : r.Tidy
  holds : ∀ key value, (key, value) ∈ r.entries ↔ Held history key value
  ordered : r.keys.Pairwise fun a b => UsedSince history b a
  lookups : r.hits + r.misses = history.countP fun e => e.op.isGet
  evictions : r.evictions = (history.flatMap CacheEvent.evicted).length

theorem follows_empty (n : Int) : Follows [] ({ capacity := n } : Recency V) where
  tidy := tidy_empty
  holds _ _ := by simp [held_nil]
  ordered := List.Pairwise.nil
  lookups := rfl
  evictions := rfl

variable {history : List (CacheEvent V)} {r : Recency V} {e : CacheEvent V}
  {key : String} {value : V}

/-- Entries that are not used keep their order. -/
theorem Follows.ordered_concat (h : r.Follows history) {es : List (String × V)}
    (hes : es.Sublist r.entries) (he : ∀ k ∈ es.map Prod.fst, ¬ e.Uses k) :
    (es.map Prod.fst).Pairwise fun a b => UsedSince (history ++ [e]) b a :=
  (h.ordered.sublist (hes.map _)).imp_of_mem fun _ hb hused => hused.concat (he _ hb)

/-- The entry that is used comes first. -/
theorem Follows.ordered_front (h : r.Follows history) (huses : ∀ k, e.Uses k ↔ k = key) :
    (((key, value) :: without key r.entries).map Prod.fst).Pairwise
      fun a b => UsedSince (history ++ [e]) b a := by
  have hother : ∀ k ∈ (without key r.entries).map Prod.fst, ¬ e.Uses k := by
    intro k hk
    obtain ⟨x, hx, rfl⟩ := List.mem_map.mp hk
    exact fun hused => (mem_without_iff.mp hx).2 ((huses _).mp hused)
  refine List.pairwise_cons.mpr ⟨fun k hk => ?_, h.ordered_concat List.filter_sublist hother⟩
  exact usedSince_concat ((huses key).mpr rfl) (hother k hk)

theorem countP_concat {p : CacheEvent V → Bool} :
    (history ++ [e]).countP p = history.countP p + if p e then 1 else 0 := by
  simp [List.countP_append, List.countP_cons]

theorem flatMap_concat_length : ((history ++ [e]).flatMap CacheEvent.evicted).length =
    (history.flatMap CacheEvent.evicted).length + e.evicted.length := by
  simp

/-- A lookup is a use if it hits. -/
theorem Follows.get (h : r.Follows history) (key : String) :
    (r.get key).2.Follows (history ++ [.got key (r.get key).1]) := by
  have htidy := h.tidy.get key
  rw [Recency.get] at htidy ⊢
  cases hfind : r.find? key with
  | none =>
    rw [hfind] at htidy
    refine ⟨htidy, fun k v => ?_,
      h.ordered_concat (List.Sublist.refl _) fun _ _ hused => hused.2 rfl,
      ?_, ?_⟩
    · rw [held_concat, h.holds]
      simp [CacheEvent.Ends]
    · rw [countP_concat, ← h.lookups]
      rfl
    · rw [flatMap_concat_length]
      exact h.evictions
  | some value =>
    rw [hfind] at htidy
    refine ⟨htidy, fun k v => ?_, h.ordered_front fun k => by
      simp [CacheEvent.Uses, eq_comm], ?_, ?_⟩
    · -- the entry of the key is the one that was found
      have hvalue : ∀ v, (key, v) ∈ r.entries ↔ v = value := fun v => by
        constructor
        · intro hv
          have hinj := List.inj_on_of_nodup_map h.tidy.nodup
          exact congrArg Prod.snd (hinj hv (mem_of_find? hfind) rfl)
        · rintro rfl
          exact mem_of_find? hfind
      rw [held_concat, ← h.holds]
      show (k, v) ∈ (key, value) :: without key r.entries ↔ _
      rw [List.mem_cons, mem_without_iff, Prod.mk.injEq]
      simp only [CacheEvent.Ends, not_false_eq_true, and_true, reduceCtorEq, exists_false, false_or]
      by_cases hk : k = key
      · subst hk
        simp [hvalue]
      · simp [hk]
    · rw [countP_concat, ← h.lookups]
      show r.hits + 1 + r.misses = _
      exact Nat.add_right_comm _ _ _
    · rw [flatMap_concat_length]
      exact h.evictions

/-- There is always room for the entry in front. -/
theorem mem_take_room {es : List (String × V)} :
    (key, value) ∈ ((key, value) :: es).take (r.room ((key, value) :: es).length) := by
  have hpos : 0 < r.room ((key, value) :: es).length := by
    rw [room, List.length_cons]
    split <;> omega
  obtain ⟨m, hm⟩ := Nat.exists_eq_succ_of_ne_zero (Nat.ne_of_gt hpos)
  rw [hm]
  exact List.mem_cons_self

/-- Storing a value is a use, and ends what is evicted. -/
theorem Follows.set (h : r.Follows history) (key : String) (value : V) :
    (r.set key value).Follows (history ++ [.stored key value (r.evictedBy key value)]) := by
  have htidy := h.tidy.set key value
  have hfront : ((r.stored key value).map Prod.fst).Pairwise fun a b =>
      UsedSince (history ++ [.stored key value (r.evictedBy key value)]) b a :=
    h.ordered_front fun k => by simp [CacheEvent.Uses, eq_comm]
  have hlookups : ∀ evicted, r.hits + r.misses =
      (history ++ [CacheEvent.stored key value evicted]).countP fun e => e.op.isGet := by
    intro evicted
    rw [countP_concat, ← h.lookups]
    rfl
  rw [Recency.set] at htidy ⊢
  rw [Recency.evictedBy] at hfront ⊢
  split at htidy
  -- the key was there: its value is replaced, and nothing is evicted
  next hsome =>
    rw [if_pos hsome] at hfront ⊢
    rw [if_pos hsome]
    refine ⟨htidy, fun k v => ?_, hfront, hlookups _, ?_⟩
    · rw [held_concat, ← h.holds]
      show (k, v) ∈ (key, value) :: without key r.entries ↔ _
      rw [List.mem_cons, mem_without_iff]
      simp only [Prod.mk.injEq, CacheEvent.Ends, CacheEvent.stored.injEq, List.map_nil,
        List.not_mem_nil, or_false, exists_and_left, exists_eq', and_true]
      exact or_congr (and_congr eq_comm eq_comm) (and_congr_right fun _ => ne_comm)
    · rw [flatMap_concat_length]
      exact h.evictions
  -- a new key: the entries without room are dropped from the end
  next hnone =>
    rw [if_neg hnone] at hfront ⊢
    rw [if_neg hnone]
    have hfind : r.find? key = none := by simpa using hnone
    have hnot : key ∉ r.keys := find?_eq_none_iff.mp hfind
    have hstored : r.stored key value = (key, value) :: r.entries := stored_of_none hfind
    have hnodup : ((r.stored key value).map Prod.fst).Nodup := nodup_cons_without h.tidy.nodup
    refine ⟨htidy, fun k v => ?_, hfront.sublist ((List.take_sublist _ _).map _), hlookups _, ?_⟩
    · -- an entry stays when it is not among those dropped, which have other keys
      have hsplit := List.take_append_drop (r.room (r.stored key value).length) (r.stored key value)
      rw [← hsplit, List.map_append] at hnodup
      have hdisjoint := List.disjoint_of_nodup_append hnodup
      rw [held_concat, ← h.holds]
      show (k, v) ∈ (r.stored key value).take (r.room (r.stored key value).length) ↔ _
      simp only [CacheEvent.Ends, CacheEvent.stored.injEq, exists_and_left, exists_eq', and_true,
        dropped, List.map_reverse, List.mem_reverse, not_or]
      constructor
      · intro hmem
        have hk :
            k ∈ ((r.stored key value).take (r.room (r.stored key value).length)).map Prod.fst :=
          List.mem_map_of_mem hmem
        have hin := List.mem_of_mem_take hmem
        rw [hstored] at hin
        obtain heq | hin := List.mem_cons.mp hin
        · cases heq
          exact .inl ⟨rfl, rfl⟩
        · refine .inr ⟨hin, ?_, hdisjoint hk⟩
          rintro rfl
          exact hnot (List.mem_map_of_mem hin)
      · rintro (⟨rfl, rfl⟩ | ⟨hin, -, hkept⟩)
        · rw [hstored]
          exact mem_take_room
        · have hin : (k, v) ∈ r.stored key value := by
            rw [hstored]
            exact List.mem_cons_of_mem _ hin
          rw [← hsplit] at hin
          refine (List.mem_append.mp hin).resolve_right fun hdrop => hkept ?_
          exact List.mem_map_of_mem hdrop
    · rw [flatMap_concat_length]
      show r.evictions + _ = _
      rw [h.evictions, CacheEvent.evicted, dropped, List.length_reverse, List.length_drop]

/-- Removing ends the value of one key. -/
theorem Follows.delete (h : r.Follows history) (key : String) :
    (r.delete key).Follows (history ++ [.deleted key]) where
  tidy := h.tidy.delete key
  holds k v := by
    rw [held_concat, ← h.holds]
    show (k, v) ∈ without key r.entries ↔ _
    simp [mem_without_iff, CacheEvent.Ends, eq_comm]
  ordered := h.ordered_concat List.filter_sublist fun _ _ hused => hused
  lookups := by
    rw [countP_concat, ← h.lookups]
    rfl
  evictions := by
    rw [flatMap_concat_length]
    exact h.evictions

/-- Clearing ends all values. -/
theorem Follows.clear (h : r.Follows history) : r.clear.Follows (history ++ [.cleared]) where
  tidy := tidy_clear
  holds k v := by
    rw [held_concat]
    simp [Recency.clear, CacheEvent.Ends]
  ordered := List.Pairwise.nil
  lookups := by
    rw [countP_concat, ← h.lookups]
    rfl
  evictions := by
    rw [flatMap_concat_length]
    exact h.evictions

/-- Every operation follows the history. -/
theorem Follows.perform (h : r.Follows history) (op : CacheOp V) :
    (r.perform op).2.Follows (history ++ [(r.perform op).1]) := by
  cases op with
  | get key => exact h.get key
  | set key value => exact h.set key value
  | delete key => exact h.delete key
  | clear => exact h.clear

/-- So does a sequence of operations. -/
theorem Follows.run (h : r.Follows history) (ops : List (CacheOp V)) :
    (r.run ops).2.Follows (history ++ (r.run ops).1) := by
  induction ops generalizing history r with
  | nil =>
    rw [Recency.run, List.append_nil]
    exact h
  | cons op ops ih =>
    have hrest := ih (h.perform op)
    rw [List.append_assoc] at hrest
    exact hrest

theorem op_perform (r : Recency V) (op : CacheOp V) : (r.perform op).1.op = op := by
  cases op <;> rfl

theorem map_op_run (r : Recency V) (ops : List (CacheOp V)) :
    (r.run ops).1.map CacheEvent.op = ops := by
  induction ops generalizing r with
  | nil => rfl
  | cons op ops ih => exact congrArg₂ _ (op_perform r op) (ih _)

theorem capacity_perform (r : Recency V) (op : CacheOp V) :
    (r.perform op).2.capacity = r.capacity := by
  cases op with
  | get key => exact capacity_get r key
  | set key value => exact capacity_set r key value
  | delete key => rfl
  | clear => rfl

theorem capacity_run (r : Recency V) (ops : List (CacheOp V)) :
    (r.run ops).2.capacity = r.capacity := by
  induction ops generalizing r with
  | nil => rfl
  | cons op ops ih => exact (ih _).trans (capacity_perform r op)

/-- Storing evicts nothing, or the entry used longest ago when a further key meets a full cache. -/
theorem evictedBy_eq (h : r.Tidy) (key : String) (value : V) : r.evictedBy key value =
    if key ∉ r.keys ∧ (r.size : Int) = r.capacity then r.oldestFirst.take 1 else [] := by
  rw [evictedBy]
  split
  next hsome => rw [if_neg fun hnot => hnot.1 (mem_keys_of_isSome hsome)]
  next hnone =>
    have hfind : r.find? key = none := by simpa using hnone
    have hnot : key ∉ r.keys := find?_eq_none_iff.mp hfind
    have hfits := h.fits
    have hsize : r.size = r.entries.length := rfl
    rw [dropped, stored_of_none hfind, List.length_cons, oldestFirst]
    split
    next hfull =>
      rw [List.take_reverse]
      congr 1
      cases hentries : r.entries with
      | nil =>
        -- an empty cache that is full has no limit
        rw [room, if_neg (by rw [hentries] at hsize; simp at hsize; omega)]
        rfl
      | cons x xs =>
        have hroom : r.room (xs.length + 1 + 1) = xs.length + 1 := by
          rw [hentries, List.length_cons] at hsize
          rw [room, if_pos (by omega)]
          omega
        rw [List.length_cons, hroom]
        rfl
    next hspare =>
      have hroom : r.room (r.entries.length + 1) = r.entries.length + 1 := by
        rw [room]
        split
        next hpos =>
          have hne : (r.size : Int) ≠ r.capacity := fun heq => hspare ⟨hnot, heq⟩
          have := hfits hpos
          omega
        next => rfl
      rw [hroom, ← List.length_cons (a := (key, value)), List.drop_length, List.reverse_nil]

/-- A lookup finds what the history holds. -/
theorem Follows.get_eq_some_iff (h : r.Follows history) (key : String) (value : V) :
    (r.get key).1 = some value ↔ Held history key value := by
  rw [← h.holds, Recency.get]
  cases hfind : r.find? key with
  | none =>
    refine iff_of_false (by simp) fun hmem => ?_
    exact find?_eq_none_iff.mp hfind (List.mem_map_of_mem hmem)
  | some found =>
    have hfound := mem_of_find? hfind
    constructor
    · intro heq
      cases heq
      exact hfound
    · intro hmem
      have hinj := List.inj_on_of_nodup_map h.tidy.nodup
      exact congrArg some (congrArg Prod.snd (hinj hfound hmem rfl))

end Recency

/-- **A linked cache is a list ordered by recency.**  Whatever is done with a linked cache of
any capacity that starts empty, no operation meets a broken reference, and afterwards:

* the chain lists the same entries from both ends, a key has one of them, the index holds the
  same keys, and the length of the chain is their number, which the capacity bounds;
* an entry is there exactly when its value was stored and not replaced, removed or evicted since,
  and the entries stand in the order of their last use, as in the plain cache;
* the next lookup finds the value that the history holds, and the next value that is stored evicts
  nothing, unless it is for a further key and the cache is full, and then the entry used longest
  ago;
* hits and misses add up to the lookups, and evictions are counted. -/
theorem linked_cache_is_recency_list (n : Int) (ops : List (CacheOp V)) :
    ∃ history c es, ({ capacity := n } : LinkedCache V).run ops = .ok (history, c) ∧
      history.map CacheEvent.op = ops ∧
      c.chain.oldestFirst = .ok es ∧ c.chain.newestFirst = .ok es.reverse ∧
      (es.map Prod.fst).Nodup ∧ c.index.keys.Perm (es.map Prod.fst) ∧
      c.chain.length = es.length ∧ (0 < n → (c.chain.length : Int) ≤ n) ∧
      (∀ key value, (key, value) ∈ es ↔ Held history key value) ∧
      (es.map Prod.fst).Pairwise (UsedSince history) ∧
      ({ capacity := n } : Recency V).run ops = (history, {
        capacity := n, entries := es.reverse, hits := c.hits, misses := c.misses,
        evictions := c.evictions }) ∧
      (∀ key, ∃ found c', c.get key = .ok (found, c') ∧
        ∀ value, found = some value ↔ Held history key value) ∧
      (∀ key value, ∃ c', c.set key value = .ok
        (if key ∉ es.map Prod.fst ∧ (es.length : Int) = n then es.take 1 else [], c')) ∧
      c.hits + c.misses = ops.countP CacheOp.isGet ∧
      c.evictions = (history.flatMap CacheEvent.evicted).length := by
  obtain ⟨c, hrun, hc⟩ := (LinkedCache.represents_empty (V := V) n).run ops
  have hfollows := (Recency.follows_empty (V := V) n).run ops
  have hops := Recency.map_op_run ({ capacity := n } : Recency V) ops
  have hcapacity := Recency.capacity_run ({ capacity := n } : Recency V) ops
  obtain ⟨hnewest, holdest, hindex, hlength⟩ := hc.reads
  rcases hr : ({ capacity := n } : Recency V).run ops with ⟨history, r⟩
  simp only [hr, List.nil_append] at hrun hc hfollows hops hcapacity hnewest holdest hindex hlength
  have hkeys : r.oldestFirst.map Prod.fst = r.keys.reverse := List.map_reverse
  have hsize : r.oldestFirst.length = r.size := List.length_reverse
  -- what is claimed of the linked cache is read off the plain one
  refine ⟨history, c, r.oldestFirst, hrun, hops, holdest, ?_, ?_, ?_, ?_, ?_, fun key value => ?_,
    ?_, ?_, fun key => ?_, fun key value => ?_, ?_, ?_⟩
  · rw [hnewest, Recency.oldestFirst, List.reverse_reverse]
  · rw [hkeys]
    exact List.nodup_reverse.mpr hfollows.tidy.nodup
  · rw [hkeys]
    exact hindex.trans (List.reverse_perm _).symm
  · rw [hlength, hsize]
  · rw [hlength, ← hcapacity]
    exact hfollows.tidy.fits
  · rw [← hfollows.holds, Recency.oldestFirst, List.mem_reverse]
  · rw [hkeys, List.pairwise_reverse]
    exact hfollows.ordered
  · rw [Recency.oldestFirst, List.reverse_reverse, hc.hits, hc.misses, hc.evictions, ← hcapacity]
  · obtain ⟨c', hget, -⟩ := hc.get key
    exact ⟨_, c', hget, fun value => hfollows.get_eq_some_iff key value⟩
  · obtain ⟨c', hset, -⟩ := hc.set key value
    refine ⟨c', ?_⟩
    rw [hset, Recency.evictedBy_eq hfollows.tidy, hkeys, hsize, hcapacity]
    simp only [List.mem_reverse]
  · rw [hc.hits, hc.misses, hfollows.lookups, ← hops, List.countP_map]
    rfl
  · rw [hc.evictions, hfollows.evictions]

end MicroFlow
