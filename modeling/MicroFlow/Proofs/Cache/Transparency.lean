import Mathlib.Data.List.Forall2
import MicroFlow.Cache.Store
import MicroFlow.Proofs.Cache.Key
import MicroFlow.Proofs.Cache.Recency

/-!
# A cache cannot be noticed

A session is a sequence of calls on any number of stores, each of which starts empty: an
analysis is run with a store, an entry is removed, a store is emptied, written to a file,
or filled from a file that was written before.  Whatever was called before, a run with a
store answers as a run without one.

Two things are assumed, and only about what occurs in the session: the digest does not
confuse the calls (`Separate`), and a file that was written is read as it was written
(`CacheFile.Faithful`).
-/

namespace MicroFlow

open MicroFlow.Text (Bytes)

/-! ## Reports up to absent lists -/

/-- The report with an empty list for every absent one. -/
def Report.filled (r : Report) : Report :=
  { r with
    vars := some (r.vars.getD [])
    edges := some (r.edges.getD [])
    nodes := some (r.nodes.getD []) }

/-- Two runs have the same error, or the same report up to absent and empty lists. -/
def SameAnswer (x y : Except RunError (Option Report)) : Prop :=
  x.map (Option.map Report.filled) = y.map (Option.map Report.filled)

/-! ## Sessions -/

/-- A file, by the cache that it was written from and the time. -/
structure CacheFile where
  cache : ReportCache
  time : Instant

namespace CacheFile

/-- The contents of the file. -/
def bytes (f : CacheFile) : Bytes := ReportCache.save f.cache f.time

/-- The file is read as it was written: in this version, with the same keys, and with the
same reports up to absent and empty lists. -/
def Faithful (f : CacheFile) : Prop :=
  ∃ s, ReportCache.decode? f.bytes = some s ∧ s.version = ReportCache.version ∧
    List.Forall₂ (fun e d => d.1 = e.1 ∧ d.2.map Report.filled = e.2.map Report.filled)
      f.cache.oldestFirst s.entries

end CacheFile

/-- The stores, by number, and the files in the order in which they were written. -/
structure CacheSession where
  stores : Nat → ReportCache
  files : List CacheFile

/-- What can be done in a session. -/
inductive CacheCall where
  | run (store : Nat) (ask : Ask)
  | delete (store : Nat) (key : String)
  | clear (store : Nat)
  | save (store : Nat) (time : Instant)
  | load (store file : Nat)

namespace CacheSession

/-- All stores are empty; each has a capacity of its own. -/
def start (capacity : Nat → Int) : CacheSession where
  stores i := { capacity := capacity i }
  files := []

/-- The session with another cache in a store. -/
def put (s : CacheSession) (i : Nat) (c : ReportCache) : CacheSession :=
  { s with stores := fun j => if j = i then c else s.stores j }

/-- The session after a call.  A load that fails, or of a file that was not written, changes
nothing. -/
def step (s : CacheSession) : CacheCall → CacheSession
  | .run i a => s.put i ((a.request.run (some (s.stores i))).cache.getD (s.stores i))
  | .delete i key => s.put i ((s.stores i).delete key)
  | .clear i => s.put i (s.stores i).clear
  | .save i time => { s with files := s.files ++ [⟨s.stores i, time⟩] }
  | .load i n =>
    match s.files[n]? with
    | some f => s.put i ((ReportCache.load (s.stores i) f.bytes).toOption.getD (s.stores i))
    | none => s

/-- The session after a sequence of calls. -/
def after (s : CacheSession) (calls : List CacheCall) : CacheSession := calls.foldl step s

end CacheSession

/-- What a call asks for, if it is a run. -/
def CacheCall.ask? : CacheCall → Option Ask
  | .run _ a => some a
  | _ => none

/-- The runs among calls. -/
def asks (calls : List CacheCall) : List Ask := calls.filterMap CacheCall.ask?

/-! ## Right entries -/

/-- The names in the calls hold no zero byte, and the digest tells the calls apart. -/
structure Separate (known : List Ask) : Prop where
  plain : ∀ a ∈ known, a.Plain
  distinct : ∀ a ∈ known, ∀ b ∈ known, Sha256.digest a.material = Sha256.digest b.material →
    a.material = b.material

variable {a : Ask} {c : ReportCache}

theorem Separate.request_eq {known : List Ask} (h : Separate known) {b : Ask} (ha : a ∈ known)
    (hb : b ∈ known) (hkey : a.request.key = b.request.key) : a.request = b.request :=
  Ask.request_eq_of_key (h.plain a ha) (h.plain b hb) (h.distinct a ha b hb) hkey

/-- An entry holds, under the key of one of the calls, the report that the call asks for. -/
def RightEntry (known : List Ask) (e : String × Option Report) : Prop :=
  ∃ a ∈ known, e.1 = a.request.key ∧
    ∃ r, a.request.fresh.1 = .ok r ∧ e.2.map Report.filled = some r.filled

/-- What a run with a cache does: it serves an entry, it fails, or it makes a report and
stores it. -/
theorem Ask.run_cases (a : Ask) (c : ReportCache) :
    let out := a.request.run (some c)
    let found := c.get a.request.key
    (∃ v, c.find? a.request.key = some v ∧ out.result = .ok v ∧ out.cache = some found.2) ∨
      (∃ e, c.find? a.request.key = none ∧ a.request.fresh.1 = .error e ∧
        out.result = .error e ∧ out.cache = some found.2) ∨
      (∃ r, c.find? a.request.key = none ∧ a.request.fresh.1 = .ok r ∧
        out.result = .ok (some r) ∧ out.cache = some (found.2.set a.request.key (some r))) := by
  intro out found
  have hout : out = a.request.runCached c := rfl
  have hfound : found = c.get a.request.key := rfl
  have hcancelled : ¬ a.request.cancelled = true := Bool.false_ne_true
  rw [Request.runCached, if_neg hcancelled, Request.ask] at hout
  rw [Recency.get] at hout hfound
  cases hfind : c.find? a.request.key with
  -- a hit
  | some v =>
    rw [hfind] at hout hfound
    refine .inl ⟨v, rfl, ?_, ?_⟩
    · rw [hout]
    · rw [hout, hfound]
  | none =>
    rw [hfind] at hout hfound
    dsimp only at hout
    rw [Request.make] at hout
    -- a miss: the report is made, and stored unless that fails
    rcases hfresh : a.request.fresh with ⟨e | r, logged⟩
    · rw [hfresh] at hout
      refine .inr (.inl ⟨e, rfl, rfl, ?_, ?_⟩)
      · rw [hout]
      · rw [hout, hfound]
    · rw [hfresh] at hout
      refine .inr (.inr ⟨r, rfl, rfl, ?_, ?_⟩)
      · rw [hout]
      · rw [hout, hfound]

variable {known : List Ask}

/-- A run keeps the entries right. -/
theorem RightEntry.run {d : ReportCache} (ha : a ∈ known)
    (hc : c.Holds (RightEntry known)) (hd : (a.request.run (some c)).cache = some d) :
    d.Holds (RightEntry known) := by
  have hget := hc.get a.request.key
  obtain ⟨v, -, -, hcache⟩ | ⟨e, -, -, -, hcache⟩ | ⟨r, -, hfresh, -, hcache⟩ := a.run_cases c
  · rw [hcache] at hd
    cases hd
    exact hget
  · rw [hcache] at hd
    cases hd
    exact hget
  · rw [hcache] at hd
    cases hd
    exact hget.set ⟨a, ha, rfl, r, hfresh, rfl⟩

/-- A run with a store of right entries answers as one without. -/
theorem Ask.result_run (hknown : Separate known) (ha : a ∈ known)
    (hc : c.Holds (RightEntry known)) :
    SameAnswer (a.request.run (some c)).result a.request.runUncached.result := by
  have huncached : a.request.runUncached.result = a.request.fresh.1.map some := rfl
  obtain ⟨v, hfind, hresult, -⟩ | ⟨e, -, hfresh, hresult, -⟩ | ⟨r, -, hfresh, hresult, -⟩ :=
    a.run_cases c
  · -- an entry under this key is the report of a call for the same thing
    obtain ⟨b, hb, hkey, r, hfresh, hv⟩ := hc _ (Recency.mem_of_find? hfind)
    rw [← hknown.request_eq ha hb hkey] at hfresh
    rw [SameAnswer, hresult, huncached, hfresh]
    show Except.ok (v.map Report.filled) = Except.ok (some r.filled)
    rw [hv]
  · rw [SameAnswer, hresult, huncached, hfresh]
    rfl
  · rw [SameAnswer, hresult, huncached, hfresh]
    rfl

/-- A run that fails stores nothing. -/
theorem Ask.entries_of_error {e : RunError} (h : (a.request.run (some c)).result = .error e) :
    (a.request.run (some c)).cache.map Recency.entries = some c.entries := by
  obtain ⟨v, -, hresult, -⟩ | ⟨e, hfind, -, -, hcache⟩ | ⟨r, -, -, hresult, -⟩ := a.run_cases c
  · rw [hresult] at h
    cases h
  · rw [hcache]
    exact congrArg some (Recency.entries_get_of_none hfind)
  · rw [hresult] at h
    cases h

/-- Entries that are the same up to absent lists are right as well. -/
theorem RightEntry.of_forall₂ {es ds : List (String × Option Report)}
    (h : List.Forall₂ (fun e d => d.1 = e.1 ∧ d.2.map Report.filled = e.2.map Report.filled) es ds)
    (hes : ∀ e ∈ es, RightEntry known e) : ∀ d ∈ ds, RightEntry known d := by
  induction h with
  | nil =>
    intro d hd
    cases hd
  | @cons e d es ds hed _ ih =>
    intro x hx
    obtain rfl | hx := List.mem_cons.mp hx
    · obtain ⟨a, ha, hkey, r, hfresh, hr⟩ := hes e List.mem_cons_self
      exact ⟨a, ha, hed.1.trans hkey, r, hfresh, hed.2.trans hr⟩
    · exact ih (fun e he => hes e (List.mem_cons_of_mem _ he)) x hx

/-- A faithful file has right entries if its cache had. -/
theorem CacheFile.Faithful.load {f : CacheFile} {c d : ReportCache} (hf : f.Faithful)
    (hcache : f.cache.Holds (RightEntry known)) (hd : ReportCache.load c f.bytes = .ok d) :
    d.Holds (RightEntry known) := by
  obtain ⟨s, hdecode, hversion, hentries⟩ := hf
  rw [ReportCache.load, hdecode] at hd
  dsimp only at hd
  rw [if_pos hversion] at hd
  cases hd
  refine Recency.holds_restore (RightEntry.of_forall₂ hentries fun e he => ?_)
  exact hcache e (List.mem_reverse.mp he)

namespace CacheSession

/-- The entries of all stores and files are right. -/
structure Right (known : List Ask) (s : CacheSession) : Prop where
  stores : ∀ i, (s.stores i).Holds (RightEntry known)
  files : ∀ f ∈ s.files, f.cache.Holds (RightEntry known)

theorem right_start (capacity : Nat → Int) : (start capacity).Right known where
  stores _ := Recency.holds_empty
  files f hf := by cases hf

/-- A session stays right if a right cache is put into it. -/
theorem Right.put {s : CacheSession} {c : ReportCache} (h : s.Right known)
    (hc : c.Holds (RightEntry known)) (i : Nat) : (s.put i c).Right known where
  stores j := by
    show (if j = i then c else s.stores j).Holds _
    split
    · exact hc
    · exact h.stores j
  files := h.files

/-- One call keeps all entries right. -/
theorem Right.step {s : CacheSession} (h : s.Right known) (call : CacheCall)
    (hcall : ∀ a ∈ call.ask?, a ∈ known) (hfiles : ∀ f ∈ s.files, f.Faithful) :
    (s.step call).Right known := by
  cases call with
  | run i a =>
    refine h.put ?_ i
    cases hcache : (a.request.run (some (s.stores i))).cache with
    | none => exact h.stores i
    | some d => exact RightEntry.run (hcall a rfl) (h.stores i) hcache
  | delete i key => exact h.put ((h.stores i).delete key) i
  | clear i => exact h.put Recency.holds_clear i
  | save i time =>
    refine ⟨h.stores, fun f hf => ?_⟩
    obtain hf | hf := List.mem_append.mp hf
    · exact h.files f hf
    · obtain rfl := List.mem_singleton.mp hf
      exact h.stores i
  | load i n =>
    rw [CacheSession.step]
    split
    next f hf =>
      have hmem := List.mem_of_getElem? hf
      refine h.put ?_ i
      cases hload : ReportCache.load (s.stores i) f.bytes with
      | error e => exact h.stores i
      | ok d => exact (hfiles f hmem).load (h.files f hmem) hload
    next => exact h

/-- Files stay. -/
theorem files_step (s : CacheSession) (call : CacheCall) : s.files ⊆ (s.step call).files := by
  cases call with
  | save i time => exact List.subset_append_left _ _
  | load i n =>
    rw [step]
    split <;> exact List.Subset.refl _
  | _ => exact List.Subset.refl _

theorem files_after (s : CacheSession) (calls : List CacheCall) :
    s.files ⊆ (s.after calls).files := by
  induction calls generalizing s with
  | nil => exact List.Subset.refl _
  | cons call calls ih => exact List.Subset.trans (files_step s call) (ih (s.step call))

/-- A sequence of calls keeps all entries right. -/
theorem Right.after {s : CacheSession} (h : s.Right known) (calls : List CacheCall)
    (hcalls : ∀ a ∈ asks calls, a ∈ known) (hfiles : ∀ f ∈ (s.after calls).files, f.Faithful) :
    (s.after calls).Right known := by
  induction calls generalizing s with
  | nil => exact h
  | cons call calls ih =>
    have hstep : (s.step call).Right known := by
      refine h.step call (fun a ha => hcalls a ?_) fun f hf => hfiles f ?_
      · exact List.mem_filterMap.mpr ⟨call, List.mem_cons_self, ha⟩
      · exact files_after s (call :: calls) hf
    refine ih hstep (fun a ha => hcalls a ?_) hfiles
    obtain ⟨x, hx, hxa⟩ := List.mem_filterMap.mp ha
    exact List.mem_filterMap.mpr ⟨x, List.mem_cons_of_mem _ hx, hxa⟩

/-- At every point of a session, all stores and files have right entries. -/
theorem right_before {capacity : Nat → Int} {before calls : List CacheCall}
    (hsub : before <+: calls)
    (hfiles : ∀ f ∈ ((start capacity).after calls).files, f.Faithful) :
    ((start capacity).after before).Right (asks calls) := by
  obtain ⟨rest, rfl⟩ := hsub
  refine (right_start capacity).after before (fun a ha => ?_) fun f hf => hfiles f ?_
  · rw [asks, List.filterMap_append]
    exact List.mem_append_left _ ha
  · rw [after, List.foldl_append]
    exact files_after _ rest hf

end CacheSession

/-- **Caching is transparent.**  In a session of calls whose names hold no zero byte and
which the digest tells apart, with files that are read as they were written:

* every run with a store answers as the same run without a cache, and stores nothing
  when it fails;
* every entry of every store is the report that a call of the session asks for, under
  its key;
* the analysis, the label of the solver and the source can be told from the key. -/
theorem caching_is_transparent (capacity : Nat → Int) (calls : List CacheCall)
    (hplain : ∀ a ∈ asks calls, a.Plain)
    (hdigest : ∀ a ∈ asks calls, ∀ b ∈ asks calls,
      Sha256.digest a.material = Sha256.digest b.material → a.material = b.material)
    (hfiles : ∀ f ∈ ((CacheSession.start capacity).after calls).files, f.Faithful) :
    (∀ before i a rest, calls = before ++ .run i a :: rest →
      let c := ((CacheSession.start capacity).after before).stores i
      SameAnswer (a.request.run (some c)).result a.request.runUncached.result ∧
        ∀ e, (a.request.run (some c)).result = .error e →
          (a.request.run (some c)).cache.map Recency.entries = some c.entries) ∧
      (∀ i, ∀ e ∈ (((CacheSession.start capacity).after calls).stores i).entries,
        RightEntry (asks calls) e) ∧
      ∀ a ∈ asks calls, ∀ b ∈ asks calls, a.request.key = b.request.key →
        a.request.analysis.name = b.request.analysis.name ∧
          a.request.solver.label = b.request.solver.label ∧ a.source = b.source := by
  have hknown : Separate (asks calls) := ⟨hplain, hdigest⟩
  refine ⟨?_, ?_, ?_⟩
  · intro before i a rest hcalls c
    have ha : a ∈ asks calls := by
      refine List.mem_filterMap.mpr ⟨.run i a, ?_, rfl⟩
      rw [hcalls]
      exact List.mem_append_right _ List.mem_cons_self
    -- before the call, all caches hold right entries
    have hright : ((CacheSession.start capacity).after before).Right (asks calls) :=
      CacheSession.right_before ⟨_, hcalls.symm⟩ hfiles
    exact ⟨a.result_run hknown ha (hright.stores i), fun e he => Ask.entries_of_error he⟩
  · exact (CacheSession.right_before List.prefix_rfl hfiles).stores
  · intro a ha b hb hkey
    have heq := hknown.request_eq ha hb hkey
    rw [heq]
    exact ⟨rfl, rfl, congrArg Request.source heq⟩

/-- Two calls for one source, with different solvers. -/
def firstAsk : Ask := ⟨Text.toBytes "int x; x := 1; write x;", "sign", "chaotic"⟩

def secondAsk : Ask := { firstAsk with solver := "round-robin" }

/-- A call that fails: its source has a zero byte. -/
def brokenAsk : Ask := ⟨Text.toBytes "write 1;" ++ [0], "live", "fifo"⟩

/-- The second report takes the place of the first in a store with room for one, and
reaches another store through a file. -/
def reloadCalls : List CacheCall :=
  [.run 0 firstAsk, .run 0 brokenAsk, .run 0 secondAsk, .save 0 ⟨1, 2⟩, .load 1 0, .clear 0]

/-- After the first store has been emptied, the call is served from the other one, and
answered as without a cache. -/
theorem caching_is_transparent_reload :
    let s := (CacheSession.start fun i => if i = 0 then 1 else 0).after reloadCalls
    ((s.stores 1).find? secondAsk.request.key).isSome ∧ ((s.stores 0).entries = []) ∧
      SameAnswer (secondAsk.request.run (some (s.stores 1))).result
        secondAsk.request.runUncached.result := by
  intro s
  refine ⟨by decide +kernel, by decide +kernel, ?_⟩
  have hfiles : ∀ f ∈ ((CacheSession.start fun i => if i = 0 then 1 else 0).after
      (reloadCalls ++ [.run 1 secondAsk])).files, f.Faithful := by
    intro f hf
    obtain rfl := List.mem_singleton.mp hf
    exact ⟨⟨1, _⟩, by decide +kernel, rfl, List.forall₂_same.mpr fun _ _ => ⟨rfl, rfl⟩⟩
  exact ((caching_is_transparent _ (reloadCalls ++ [.run 1 secondAsk]) (by decide +kernel)
    (by decide +kernel) hfiles).1 reloadCalls 1 secondAsk [] rfl).1

end MicroFlow
