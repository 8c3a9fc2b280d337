import MicroFlow.Proofs.Cache.Transparency

/-!
# A larger cache is never worse

The same calls are run with two caches that start empty, a small one and a larger one.  As
long as the digest and the names tell the calls apart, the small cache holds the most recent entries
of the large one, in the same order (`Nested`).

A lookup that hits in the large cache only puts an entry in front there, which a cache in general
has no reason to follow.  Here the small cache follows, because the call is then made anew and its
report stored; that it cannot fail is known from the entry in the large cache (`RightEntry`).
-/

namespace MicroFlow

/-! ## Keys -/

namespace Recency

variable {V : Type} {c : Recency V} {k : String}

theorem keys_without (es : List (String × V)) :
    (without k es).map Prod.fst = (es.map Prod.fst).filter (· != k) := by
  rw [without, List.filter_map]
  rfl

/-- A hit moves its key to the front. -/
theorem keys_get_of_some {v : V} (h : c.find? k = some v) :
    (c.get k).2.keys = k :: c.keys.filter (· != k) := by
  rw [get, h]
  exact congrArg (k :: ·) (keys_without c.entries)

/-- A new key goes in front, and the oldest ones are dropped. -/
theorem keys_set_of_none (h : c.find? k = none) (v : V) :
    (c.set k v).keys = (k :: c.keys).take (c.room (c.keys.length + 1)) := by
  rw [set, h]
  show ((c.stored k v).take _).map Prod.fst = _
  rw [stored_of_none h, List.map_take, List.length_cons, keys, List.length_map]
  rfl

end Recency

/-- Taking out a key behind the first ones leaves these as they are. -/
theorem take_filter_ne {keys : List String} {k : String} {m : Nat} (h : k ∉ keys.take (m + 1)) :
    (keys.filter (· != k)).take m = keys.take m := by
  induction keys generalizing m with
  | nil => rfl
  | cons x keys ih =>
    rw [List.take_succ_cons, List.mem_cons, not_or] at h
    rw [List.filter_cons_of_pos (by simpa using Ne.symm h.1)]
    cases m with
    | zero => rfl
    | succ m => rw [List.take_succ_cons, List.take_succ_cons, ih h.2]

/-- Taking out one of the first keys lets the next one move up. -/
theorem filter_take_ne {keys : List String} {k : String} {m : Nat} (hnodup : keys.Nodup)
    (h : k ∈ keys.take (m + 1)) :
    (keys.take (m + 1)).filter (· != k) = (keys.filter (· != k)).take m := by
  induction keys generalizing m with
  | nil => cases h
  | cons x keys ih =>
    obtain ⟨hx, hnodup⟩ := List.nodup_cons.mp hnodup
    rw [List.take_succ_cons] at h ⊢
    by_cases hxk : x = k
    · subst hxk
      have hall : ∀ xs : List String, x ∉ xs → xs.filter (· != x) = xs := fun xs hxs =>
        List.filter_eq_self.mpr fun y hy => bne_iff_ne.mpr fun heq => hxs (heq ▸ hy)
      rw [List.filter_cons_of_neg (by simp), List.filter_cons_of_neg (by simp), hall _ hx,
        hall _ fun hmem => hx (List.mem_of_mem_take hmem)]
    · have hmem : k ∈ keys.take m := (List.mem_cons.mp h).resolve_left (Ne.symm hxk)
      rw [List.filter_cons_of_pos (by simpa using hxk),
        List.filter_cons_of_pos (by simpa using hxk)]
      cases m with
      | zero => cases hmem
      | succ m => rw [ih hnodup hmem, List.take_succ_cons]

/-! ## Calls -/

variable {a : Ask}

namespace Ask

/-- The cache behind a call. -/
def after (a : Ask) (c : ReportCache) : ReportCache := (a.request.run (some c)).cache.getD c

/-- The call is served from the cache. -/
def Hits (a : Ask) (c : ReportCache) : Prop := (a.request.ask c).1.isSome = true

instance (a : Ask) (c : ReportCache) : Decidable (a.Hits c) :=
  inferInstanceAs (Decidable (_ = true))

/-- A call hits the keys of the cache. -/
theorem hits_iff {c : ReportCache} : a.Hits c ↔ a.request.key ∈ c.keys := by
  rw [Hits, Request.ask, Recency.get]
  cases hfind : c.find? a.request.key with
  | none =>
    rw [← not_iff_not, ← Recency.find?_eq_none_iff]
    exact iff_of_true (by simp) hfind
  | some v => exact iff_of_true rfl (List.mem_map_of_mem (Recency.mem_of_find? hfind))

/-- What a call does to the keys of a cache: its key is found and goes in front, or the call
fails and they stay, or the call succeeds and its key is put in front. -/
theorem after_cases (a : Ask) (c : ReportCache) :
    (a.after c).capacity = c.capacity ∧
      (a.request.key ∈ c.keys ∧
          (a.after c).keys = a.request.key :: c.keys.filter (· != a.request.key) ∨
        a.request.key ∉ c.keys ∧ (∃ e, a.request.fresh.1 = .error e) ∧ (a.after c).keys = c.keys ∨
        a.request.key ∉ c.keys ∧ (∃ r, a.request.fresh.1 = .ok r) ∧
          (a.after c).keys = (a.request.key :: c.keys).take (c.room (c.keys.length + 1))) := by
  have hcapacity := Recency.capacity_get c a.request.key
  obtain ⟨v, hfind, -, hcache⟩ | ⟨e, hfind, hfresh, -, hcache⟩ | ⟨r, hfind, hfresh, -, hcache⟩ :=
    a.run_cases c <;> rw [after, hcache]
  · exact ⟨hcapacity, .inl ⟨List.mem_map_of_mem (Recency.mem_of_find? hfind),
      Recency.keys_get_of_some hfind⟩⟩
  · refine ⟨hcapacity, .inr (.inl ⟨Recency.find?_eq_none_iff.mp hfind, ⟨e, hfresh⟩, ?_⟩)⟩
    exact congrArg (List.map Prod.fst) (Recency.entries_get_of_none hfind)
  · have hget : (c.get a.request.key).2 = { c with misses := c.misses + 1 } := by
      rw [Recency.get, hfind]
    rw [hget]
    refine ⟨Recency.capacity_set _ _ _, .inr
      (.inr ⟨Recency.find?_eq_none_iff.mp hfind, ⟨r, hfresh⟩, ?_⟩)⟩
    exact Recency.keys_set_of_none (c := { c with misses := c.misses + 1 }) hfind _

end Ask

/-- The cache behind a sequence of calls. -/
def afterCalls (c : ReportCache) (asks : List Ask) : ReportCache :=
  asks.foldl (fun c a => a.after c) c

/-! ## Nested caches -/

/-- The small cache, with room for `m` entries, holds the most recent keys of the large one. -/
structure Nested (known : List Ask) (m : Nat) (small large : ReportCache) : Prop where
  capacity : small.capacity = m
  wider : 0 < large.capacity → (m : Int) ≤ large.capacity
  keys : small.keys = large.keys.take m
  nodup : large.keys.Nodup
  right : large.Holds (RightEntry known)

variable {known : List Ask} {m : Nat} {small large : ReportCache}

/-- Two empty caches are nested. -/
theorem nested_empty {m n : Int} (hm : 0 < m) (hn : m < n ∨ n ≤ 0) :
    Nested known m.toNat { capacity := m } { capacity := n } where
  capacity := (Int.toNat_of_nonneg (Int.le_of_lt hm)).symm
  wider hpos := by
    have hpos : 0 < n := hpos
    show (m.toNat : Int) ≤ n
    omega
  keys := List.take_nil.symm
  nodup := List.nodup_nil
  right := Recency.holds_empty

/-- What hits the small cache hits the large one. -/
theorem Nested.hits (h : Nested known m small large) (ha : a.Hits small) : a.Hits large := by
  rw [Ask.hits_iff, h.keys] at ha
  exact Ask.hits_iff.mpr (List.mem_of_mem_take ha)

/-- A call whose report the large cache holds does not fail. -/
theorem Nested.succeeds (h : Nested known m small large) (hknown : Separate known)
    (ha : a ∈ known) (hkey : a.request.key ∈ large.keys) : ∃ r, a.request.fresh.1 = .ok r := by
  obtain ⟨e, he, hek⟩ := List.mem_map.mp hkey
  obtain ⟨b, hb, hbk, r, hfresh, -⟩ := h.right e he
  rw [hknown.request_eq ha hb (hek.symm.trans hbk)]
  exact ⟨r, hfresh⟩

/-- One call keeps the caches nested. -/
theorem Nested.step (h : Nested known m small large) (hm : 0 < m) (hknown : Separate known)
    (ha : a ∈ known) : Nested known m (a.after small) (a.after large) := by
  obtain ⟨m, rfl⟩ := Nat.exists_eq_succ_of_ne_zero (Nat.ne_of_gt hm)
  have hsmall := a.after_cases small
  have hlarge := a.after_cases large
  have hright : (a.after large).Holds (RightEntry known) := by
    rw [Ask.after]
    cases hcache : (a.request.run (some large)).cache with
    | none => exact h.right
    | some d => exact RightEntry.run ha h.right hcache
  -- what the small cache holds after storing: the new key and all but one of its keys
  have hput : (a.request.key :: small.keys).take (small.room (small.keys.length + 1)) =
      a.request.key :: large.keys.take m := by
    rw [Recency.room, h.capacity, if_pos (by omega), Int.toNat_natCast, Nat.succ_min_succ,
      List.take_succ_cons, ← List.take_eq_take_min, h.keys, List.take_take,
        Nat.min_eq_left (Nat.le_succ m)]
  have htidy : (a.after large).keys.Nodup := by
    obtain ⟨-, ⟨-, hl⟩ | ⟨-, -, hl⟩ | ⟨hnot, -, hl⟩⟩ := hlarge <;> rw [hl]
    · refine List.nodup_cons.mpr ⟨fun hmem => ?_, h.nodup.filter _⟩
      simp at hmem
    · exact h.nodup
    · exact (List.nodup_cons.mpr ⟨hnot, h.nodup⟩).sublist (List.take_sublist _ _)
  refine ⟨hsmall.1.trans h.capacity, hlarge.1 ▸ h.wider, ?_, htidy, hright⟩
  obtain ⟨-, ⟨hin, hs⟩ | ⟨hout, ⟨e, hfails⟩, hs⟩ | ⟨hout, hmade, hs⟩⟩ := hsmall <;>
    obtain ⟨-, ⟨hlin, hl⟩ | ⟨hlout, ⟨f, hlfails⟩, hl⟩ | ⟨hlout, hlmade, hl⟩⟩ := hlarge <;>
    rw [hs, hl]
  · -- the key goes in front on both sides
    rw [h.keys] at hin ⊢
    rw [filter_take_ne h.nodup hin, List.take_succ_cons]
  · exact absurd (h.keys ▸ hin) fun hmem => hlout (List.mem_of_mem_take hmem)
  · exact absurd (h.keys ▸ hin) fun hmem => hlout (List.mem_of_mem_take hmem)
  · -- a call that the large cache answers does not fail
    obtain ⟨r, hok⟩ := h.succeeds hknown ha hlin
    rw [hok] at hfails
    cases hfails
  · exact h.keys
  · obtain ⟨r, hok⟩ := hlmade
    rw [hok] at hfails
    cases hfails
  · -- the small cache follows by storing the report anew
    rw [h.keys] at hout
    rw [hput, List.take_succ_cons, take_filter_ne hout]
  · obtain ⟨r, hok⟩ := hmade
    rw [hok] at hlfails
    cases hlfails
  · -- the report is stored on both sides, and the large cache has the more room
    have hwide :
        min (m + 1) (large.room (large.keys.length + 1)) = min m large.keys.length + 1 := by
      have hwider := h.wider
      rw [Recency.room]
      split
      · rename_i hpos
        have := hwider hpos
        omega
      · omega
    rw [hput, List.take_take, hwide, List.take_succ_cons, ← List.take_eq_take_min]

/-- A sequence of calls keeps the caches nested. -/
theorem Nested.after (h : Nested known m small large) (hm : 0 < m) (hknown : Separate known)
    {asks : List Ask} (hasks : ∀ a ∈ asks, a ∈ known) :
    Nested known m (afterCalls small asks) (afterCalls large asks) := by
  induction asks generalizing small large with
  | nil => exact h
  | cons a rest ih =>
    refine ih (h.step hm hknown (hasks a List.mem_cons_self)) fun b hb => ?_
    exact hasks b (List.mem_cons_of_mem _ hb)

/-- **A larger cache is never worse.**  Calls whose names hold no zero byte and which the digest
tells apart are run with two caches that start empty, one of them with less room, or the other
without limit.  At every point the small cache holds the most recent keys of the large one, in the
same order; so a call that is served from the small cache is served from the large one. -/
theorem larger_cache_never_worse {m n : Int} (hm : 0 < m) (hn : m < n ∨ n ≤ 0) (asks : List Ask)
    (hplain : ∀ a ∈ asks, a.Plain)
    (hdigest : ∀ a ∈ asks, ∀ b ∈ asks, Sha256.digest a.material = Sha256.digest b.material →
      a.material = b.material) (before rest : List Ask) (hasks : asks = before ++ rest) :
    let small := afterCalls { capacity := m } before
    let large := afterCalls { capacity := n } before
    small.keys = large.keys.take (min m.toNat large.size) ∧
      ∀ a later, rest = a :: later → a.Hits small → a.Hits large := by
  intro small large
  have hnested : Nested asks m.toNat small large := by
    refine (nested_empty hm hn).after (by omega) ⟨hplain, hdigest⟩ fun a ha => ?_
    rw [hasks]
    exact List.mem_append_left rest ha
  refine ⟨?_, fun a _ _ => hnested.hits⟩
  have hsize : large.size = large.keys.length := (List.length_map Prod.fst).symm
  rw [hnested.keys, hsize, ← List.take_eq_take_min]

/-- A call for another source, which takes the place of others in a small cache. -/
def otherAsk : Ask := ⟨Text.toBytes "write 2;", "sign", "fifo"⟩

/-- With room for one entry, the first call is made twice, as the other one comes between; with room
for two it is served the second time.  The call that fails leaves both caches as they are. -/
theorem larger_cache_never_worse_twice :
    let asks := [firstAsk, brokenAsk, otherAsk, firstAsk]
    let small := afterCalls { capacity := 1 } asks
    let large := afterCalls { capacity := 2 } asks
    small.size = 1 ∧ large.size = 2 ∧ small.hits = 0 ∧ large.hits = 1 ∧
      small.keys = large.keys.take (min 1 large.size) := by
  intro asks small large
  have hcounts : small.size = 1 ∧ large.size = 2 ∧ small.hits = 0 ∧ large.hits = 1 := by
    decide +kernel
  refine ⟨hcounts.1, hcounts.2.1, hcounts.2.2.1, hcounts.2.2.2, ?_⟩
  exact (larger_cache_never_worse (m := 1) (n := 2) (by decide) (.inl (by decide)) asks
    (by decide +kernel) (by decide +kernel) asks [] (by simp)).1

/-! ## Names with zero bytes -/

/-- The source ends in a comment that holds a zero byte. -/
def commentAsk : Ask := ⟨Text.toBytes "write 1; //" ++ [0], "sign", "fifo"⟩

/-- An empty source and a solver that does not exist, whose name goes on with what
`commentAsk` has for its source. -/
def splitAsk : Ask := ⟨[], "sign", "fifo\x00write 1; //"⟩

/-- The digest tells apart whatever is not the same; yet the last call, which fails when it is made,
is served from the larger cache with the report of the first, and moves its key in front. -/
theorem larger_cache_can_be_worse :
    let asks := [commentAsk, otherAsk, splitAsk]
    let small := afterCalls { capacity := 1 } asks
    let large := afterCalls { capacity := 2 } asks
    (∀ a ∈ asks, ∀ b ∈ asks, Sha256.digest a.material = Sha256.digest b.material →
        a.material = b.material) ∧
      small.keys ≠ large.keys.take (min 1 large.size) ∧
      splitAsk.request.fresh.1.toOption.isNone ∧ large.hits = 1 := by
  decide +kernel

end MicroFlow
