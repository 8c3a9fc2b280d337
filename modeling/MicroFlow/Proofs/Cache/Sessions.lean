import MicroFlow.Proofs.Cache.Capacity
import MicroFlow.Proofs.Cache.Refinement

/-!
# Sessions with linked caches

The stores of a session can be linked caches.  A run then looks its report up through the index,
a store is written to a file along its chain, from the oldest entry on, and is filled from a file
entry by entry.  No call meets a broken link, and at every point the linked stores stand for the
plain ones (`LinkedSession.Follows`).  So what is known of sessions is known of linked caches.
-/

namespace MicroFlow

open MicroFlow.Text (Bytes)

namespace LinkedCache

/-- Runs an analysis with a cache: its report is looked up, or made and stored. -/
def answer (c : LinkedCache (Option Report)) (a : Ask) :
    Except Fault (Except RunError (Option Report) × LinkedCache (Option Report)) := do
  let (found, c) ← c.get a.request.key
  match found, a.request.fresh.1 with
  | some v, _ => return (.ok v, c)
  | none, .error e => return (.error e, c)
  | none, .ok r =>
    let (_, c) ← c.set a.request.key (some r)
    return (.ok (some r), c)

/-- The cache behind a sequence of runs. -/
def answers (c : LinkedCache (Option Report)) (asks : List Ask) :
    Except Fault (LinkedCache (Option Report)) :=
  asks.foldlM (fun c a => return (← c.answer a).2) c

/-- The file for a cache, with the entries as the chain gives them. -/
def save (c : LinkedCache (Option Report)) (time : Instant) : Except Fault Bytes := do
  let entries ← c.chain.oldestFirst
  return ReportCache.save { entries := entries.reverse } time

/-- Replaces the entries by those of a file of this version; other files change nothing. -/
def load (c : LinkedCache (Option Report)) (bytes : Bytes) :
    Except Fault (LinkedCache (Option Report)) :=
  match ReportCache.decode? bytes with
  | some s => if s.version = ReportCache.version then c.restore s.entries else .ok c
  | none => .ok c

variable {c : LinkedCache (Option Report)} {r : ReportCache}

/-- A run with a linked cache gives what a run with the plain cache gives. -/
theorem Represents.answer (h : c.Represents r) (a : Ask) :
    ∃ c', c.answer a = .ok ((a.request.run (some r)).result, c') ∧ c'.Represents (a.after r) := by
  obtain ⟨c₁, hget, h₁⟩ := h.get a.request.key
  rw [LinkedCache.answer, hget, Ask.after]
  have hfound : (r.get a.request.key).1 = r.find? a.request.key := by
    rw [Recency.get]
    split <;> simp_all
  obtain ⟨v, hfind, hresult, hcache⟩ | ⟨e, hfind, hfresh, hresult, hcache⟩ |
      ⟨x, hfind, hfresh, hresult, hcache⟩ := a.run_cases r <;>
    rw [hfound, hfind, hresult, hcache]
  · exact ⟨c₁, rfl, h₁⟩
  · exact ⟨c₁, by simp only [hfresh]; rfl, h₁⟩
  · obtain ⟨c₂, hset, h₂⟩ := h₁.set a.request.key (some x)
    refine ⟨c₂, ?_, h₂⟩
    simp only [hfresh]
    show (c₁.set _ _ >>= _) = _
    rw [hset]
    rfl

/-- A sequence of runs. -/
theorem Represents.answers (h : c.Represents r) (asks : List Ask) :
    ∃ c', c.answers asks = .ok c' ∧ c'.Represents (afterCalls r asks) := by
  induction asks generalizing c r with
  | nil => exact ⟨c, rfl, h⟩
  | cons a asks ih =>
    obtain ⟨c₁, hanswer, h₁⟩ := h.answer a
    obtain ⟨c₂, hrest, h₂⟩ := ih h₁
    refine ⟨c₂, ?_, h₂⟩
    rw [LinkedCache.answers, List.foldlM_cons, hanswer]
    exact hrest

/-- Both caches are written to the same bytes. -/
theorem Represents.save (h : c.Represents r) (time : Instant) :
    c.save time = .ok (ReportCache.save r time) := by
  rw [LinkedCache.save, h.reads.2.1, Recency.oldestFirst]
  show Except.ok (ReportCache.save { entries := r.entries.reverse.reverse } time) = _
  rw [List.reverse_reverse]
  rfl

/-- A load that fails with the plain cache leaves both caches as they are. -/
theorem Represents.load (h : c.Represents r) (bytes : Bytes) :
    ∃ c', c.load bytes = .ok c' ∧ c'.Represents ((ReportCache.load r bytes).toOption.getD r) := by
  rw [LinkedCache.load, ReportCache.load]
  cases ReportCache.decode? bytes with
  | none => exact ⟨c, rfl, h⟩
  | some s =>
    dsimp only
    split
    · exact represents_restore h.capacity h.hits h.misses h.evictions s.entries
    · exact ⟨c, rfl, h⟩

end LinkedCache

/-- The linked stores, by number, and the files in the order in which they were written. -/
structure LinkedSession where
  stores : Nat → LinkedCache (Option Report)
  files : List Bytes

namespace LinkedSession

/-- All stores are empty; each has a capacity of its own. -/
def start (capacity : Nat → Int) : LinkedSession where
  stores i := { capacity := capacity i }
  files := []

def put (s : LinkedSession) (i : Nat) (c : LinkedCache (Option Report)) : LinkedSession :=
  { s with stores := fun j => if j = i then c else s.stores j }

/-- The session after a call. -/
def step (s : LinkedSession) : CacheCall → Except Fault LinkedSession
  | .run i a => return s.put i (← (s.stores i).answer a).2
  | .delete i key => return s.put i (← (s.stores i).delete key)
  | .clear i => .ok (s.put i (s.stores i).clear)
  | .save i time => return { s with files := s.files ++ [← (s.stores i).save time] }
  | .load i n =>
    match s.files[n]? with
    | some bytes => return s.put i (← (s.stores i).load bytes)
    | none => .ok s

/-- The session after a sequence of calls. -/
def after (s : LinkedSession) (calls : List CacheCall) : Except Fault LinkedSession :=
  calls.foldlM step s

/-- The linked stores stand for the plain ones, and the files are the same. -/
structure Follows (s : LinkedSession) (t : CacheSession) : Prop where
  stores : ∀ i, (s.stores i).Represents (t.stores i)
  files : s.files = t.files.map CacheFile.bytes

variable {s : LinkedSession} {t : CacheSession} {capacity : Nat → Int} {calls : List CacheCall}

theorem follows_start (capacity : Nat → Int) :
    (start capacity).Follows (CacheSession.start capacity) where
  stores i := LinkedCache.represents_empty (capacity i)
  files := rfl

/-- Replacing a store in both sessions. -/
theorem Follows.put {c : LinkedCache (Option Report)} {r : ReportCache} (h : s.Follows t)
    (hc : c.Represents r) (i : Nat) : (s.put i c).Follows (t.put i r) where
  stores j := by
    show (if j = i then c else s.stores j).Represents (if j = i then r else t.stores j)
    split
    · exact hc
    · exact h.stores j
  files := h.files

/-- A call succeeds with linked stores, and they follow the plain ones. -/
theorem Follows.step (h : s.Follows t) (call : CacheCall) :
    ∃ s', s.step call = .ok s' ∧ s'.Follows (t.step call) := by
  cases call with
  | run i a =>
    obtain ⟨c, hanswer, hc⟩ := (h.stores i).answer a
    exact ⟨_, by rw [LinkedSession.step, hanswer]; rfl, h.put hc i⟩
  | delete i key =>
    obtain ⟨c, hdelete, hc⟩ := (h.stores i).delete key
    exact ⟨_, by rw [LinkedSession.step, hdelete]; rfl, h.put hc i⟩
  | clear i =>
    have hi := h.stores i
    refine ⟨_, rfl, h.put ?_ i⟩
    exact LinkedCache.represents_clear hi.capacity hi.hits hi.misses hi.evictions
  | save i time =>
    refine ⟨{ s with files := s.files ++ [ReportCache.save (t.stores i) time] }, ?_, h.stores, ?_⟩
    · rw [LinkedSession.step, (h.stores i).save time]
      rfl
    · show s.files ++ _ = (t.files ++ [(⟨t.stores i, time⟩ : CacheFile)]).map CacheFile.bytes
      rw [h.files, List.map_append]
      rfl
  | load i n =>
    rw [LinkedSession.step, CacheSession.step, h.files, List.getElem?_map]
    cases t.files[n]? with
    | none => exact ⟨s, rfl, h⟩
    | some f =>
      obtain ⟨c, hload, hc⟩ := (h.stores i).load f.bytes
      exact ⟨_, by simp only [Option.map_some, hload]; rfl, h.put hc i⟩

/-- So does a sequence of calls. -/
theorem Follows.after (h : s.Follows t) (calls : List CacheCall) :
    ∃ s', s.after calls = .ok s' ∧ s'.Follows (t.after calls) := by
  induction calls generalizing s t with
  | nil => exact ⟨s, rfl, h⟩
  | cons call calls ih =>
    obtain ⟨s₁, hstep, h₁⟩ := h.step call
    obtain ⟨s₂, hrest, h₂⟩ := ih h₁
    refine ⟨s₂, ?_, h₂⟩
    rw [LinkedSession.after, List.foldlM_cons, hstep]
    exact hrest

/-- A run with a linked cache, whatever was called before, answers as a run without a cache. -/
theorem sameAnswer (hknown : Separate (asks calls))
    (hfiles : ∀ f ∈ ((CacheSession.start capacity).after calls).files, f.Faithful)
    {before rest : List CacheCall} {i : Nat} {a : Ask}
    (hcalls : calls = before ++ .run i a :: rest) :
    ∃ s answer c, (start capacity).after before = .ok s ∧
      (s.stores i).answer a = .ok (answer, c) ∧
      SameAnswer answer a.request.runUncached.result := by
  obtain ⟨s, hafter, hs⟩ := (follows_start capacity).after before
  obtain ⟨c, hanswer, -⟩ := (hs.stores i).answer a
  have ha : a ∈ asks calls := by
    refine List.mem_filterMap.mpr ⟨.run i a, ?_, rfl⟩
    rw [hcalls]
    exact List.mem_append_right _ List.mem_cons_self
  have hright := CacheSession.right_before ⟨_, hcalls.symm⟩ hfiles
  exact ⟨s, _, c, hafter, hanswer, a.result_run hknown ha (hright.stores i)⟩

end LinkedSession

/-- Of two linked caches that start empty and are given the same calls, the chain of the smaller
one starts as that of the larger one does. -/
theorem LinkedCache.nested_chains {m n : Int} (hm : 0 < m) (hn : m < n ∨ n ≤ 0) {asks : List Ask}
    (hknown : Separate asks) : ∃ (small large : LinkedCache (Option Report))
      (es ds : List (String × Option Report)),
      LinkedCache.answers { capacity := m } asks = .ok small ∧
      LinkedCache.answers { capacity := n } asks = .ok large ∧
      small.chain.newestFirst = .ok es ∧ large.chain.newestFirst = .ok ds ∧
      es.map Prod.fst = (ds.map Prod.fst).take m.toNat := by
  obtain ⟨small, hsmall, h₁⟩ := (represents_empty m).answers asks
  obtain ⟨large, hlarge, h₂⟩ := (represents_empty n).answers asks
  refine ⟨small, large, _, _, hsmall, hlarge, h₁.reads.1, h₂.reads.1, ?_⟩
  exact ((nested_empty hm hn).after (by omega) hknown fun a ha => ha).keys

end MicroFlow
