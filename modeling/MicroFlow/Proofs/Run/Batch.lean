import MicroFlow.Proofs.Cache.Key
import MicroFlow.Proofs.Cache.Recency
import MicroFlow.Proofs.Run.Safety
import MicroFlow.Run.Batch

/-!
# Outcomes of a batch

The files of a batch are analysed by a pool of workers that share a cache.  Files are begun in their
order, as soon as a worker is free; from then on each task asks the cache in one step and stores in
another, and between these steps any other task can take some of its own.  So a report can be made
twice, dropped in between, or come from the entry that another task has stored.

None of this shows in the outcomes.  Every file has the outcome that it has when it is analysed
alone and without a cache.
-/

namespace MicroFlow

open MicroFlow.Text (Bytes)

/-! ## Failures -/

variable {e : RunError} {c d : ReportCache} {file : SourceFile} {source : Bytes}
  {cache : Option ReportCache} {b : Batch} {i : Nat}

/-- An analysis that is refused is refused in words. -/
theorem message_of_unsolved {b : Built} (hg : b.graph.Coherent) (ht : b.graph.WellTyped)
    {k : AnalysisKind} {s : SolverKind} (h : solve false b k s = .error e) :
    ∃ text, e.message? = some text := by
  by_cases hknown : k ∈ AnalysisKind.all ∧ s ∈ SolverKind.all
  · obtain ⟨nodes, hnodes⟩ := solve_nodeList hg ht hknown.1
    obtain ⟨r, hr, -⟩ := hnodes s hknown.2
    rw [hr] at h
    cases h
  · -- an unknown analysis is refused before an unknown solver
    match s with
    | .unknown name => cases k <;> cases h <;> exact ⟨_, rfl⟩
    | .chaotic =>
      obtain ⟨name, rfl⟩ : ∃ name, k = .unknown name := by
        cases k <;> simp [AnalysisKind.all, SolverKind.all] at hknown ⊢
      cases h
      exact ⟨_, rfl⟩
    | .worklist strategy =>
      obtain ⟨name, rfl⟩ : ∃ name, k = .unknown name := by
        cases k <;> cases strategy <;> simp [AnalysisKind.all, SolverKind.all] at hknown ⊢
      cases h
      exact ⟨_, rfl⟩

namespace Request

variable {q : Request}

/-- So is every request that fails and was not cancelled. -/
theorem message_of_fresh (hq : q.cancelled = false) (h : q.fresh.1 = .error e) :
    ∃ text, e.message? = some text := by
  unfold fresh at h
  cases hb : compiled q.source with
  | error e' =>
    rw [hb] at h
    cases h
    unfold compiled at hb
    cases hcompile : compile q.source with
    | ok b =>
      rw [hcompile] at hb
      cases hb
    | error e' =>
      rw [hcompile] at hb
      cases hb
      exact message_of_refused hcompile
  | ok b =>
    obtain ⟨hg, ht⟩ := coherent_of_compile (compiled_eq_ok.mp hb)
    rw [hb, hq] at h
    dsimp only at h
    cases hsolve : solve false b q.analysis q.solver with
    | error e' =>
      rw [hsolve] at h
      cases h
      exact message_of_unsolved hg ht hsolve
    | ok r =>
      rw [hsolve] at h
      cases h

/-- A request is answered from the cache, or has to be made. -/
theorem ask_cases (q : Request) (c : ReportCache) :
    (∃ v out, c.find? q.key = some v ∧ q.ask c = (some out, (c.get q.key).2) ∧ out.result = .ok v) ∨
      q.ask c = (none, (c.get q.key).2) := by
  unfold ask Recency.get
  cases c.find? q.key with
  | some v => exact .inl ⟨v, _, rfl, rfl, rfl⟩
  | none => exact .inr rfl

theorem result_make (q : Request) (c : ReportCache) : (q.make c).result = q.fresh.1.map some := by
  unfold make
  rcases q.fresh with ⟨e | r, entries⟩ <;> rfl

/-- What is stored is the answer to the request. -/
theorem holds_make {P : String × Option Report → Prop} (hc : c.Holds P)
    (hP : ∀ r, q.fresh.1 = .ok r → P (q.key, some r)) (hd : (q.make c).cache = some d) :
    d.Holds P := by
  unfold make at hd
  rcases hfresh : q.fresh with ⟨e | r, entries⟩
  · rw [hfresh] at hd
    cases hd
    exact hc
  · rw [hfresh] at hd
    cases hd
    exact hc.set (hP r (by rw [hfresh]))

end Request

/-! ## A file alone -/

namespace BatchOptions

/-- What is asked about a source. -/
def request (opts : BatchOptions) (source : Bytes) : Request :=
  { source := source, analysis := opts.analysis, solver := opts.solver }

/-- What the key of a source is the digest of. -/
def material (opts : BatchOptions) (source : Bytes) : Bytes :=
  Cache.keyMaterial source opts.analysis.name opts.solver.label

/-- The digest tells the sources apart. -/
def Separates (opts : BatchOptions) (sources : List Bytes) : Prop :=
  ∀ s ∈ sources, ∀ t ∈ sources,
    Sha256.digest (opts.material s) = Sha256.digest (opts.material t) →
      opts.material s = opts.material t

/-- Texts with the same key are the same. -/
theorem Separates.eq_of_key {opts : BatchOptions} {sources : List Bytes}
    (h : opts.Separates sources) {s t : Bytes} (hs : s ∈ sources) (ht : t ∈ sources)
    (hkey : (opts.request s).key = (opts.request t).key) : s = t := by
  have hmaterial : opts.material s = opts.material t := h s hs t ht (Text.toHex_inj hkey)
  unfold material Cache.keyMaterial at hmaterial
  have hrest := (List.cons.inj (List.append_cancel_left hmaterial)).2
  exact List.append_cancel_right (List.cons.inj (List.append_cancel_left hrest)).2

theorem Separates.mono {opts : BatchOptions} {sources more : List Bytes} (h : opts.Separates more)
    (hsub : sources ⊆ more) : opts.Separates sources :=
  fun s hs t ht => h s (hsub hs) t (hsub ht)

end BatchOptions

/-- The sources that can be read. -/
def Batch.sources (fs : Files) (files : List SourceFile) : List Bytes :=
  files.filterMap fun f => (fs.read f.fullPath).toOption

theorem Batch.mem_sources {fs : Files} {files : List SourceFile}
    (hfile : file ∈ files) (h : fs.read file.fullPath = .ok source) : source ∈ sources fs files :=
  List.mem_filterMap.mpr ⟨file, hfile, by rw [h]; rfl⟩

/-- The outcome of a file that is analysed alone and without a cache. -/
def aloneReport (opts : BatchOptions) (fs : Files) (file : SourceFile) : FileReport :=
  match fs.read file.fullPath with
  | .error e => { path := file.path, error := e.message }
  | .ok source =>
    match ((opts.request source).run none).result with
    | .ok r => { path := file.path, report := r }
    | .error e => { path := file.path, error := e.text }

theorem path_aloneReport (opts : BatchOptions) (fs : Files) (file : SourceFile) :
    (aloneReport opts fs file).path = file.path := by
  unfold aloneReport
  split
  · rfl
  · split <;> rfl

/-! ## One step -/

variable {opts : BatchOptions} {fs : Files} {files : List SourceFile}

/-- What is known of a task at any time. -/
def Task.Right (opts : BatchOptions) (fs : Files) (file : SourceFile) : Task → Prop
  | .waiting => True
  | .asked q => ∃ source, fs.read file.fullPath = .ok source ∧ q = opts.request source
  | .finished r => r = aloneReport opts fs file
  | .broken _ => False

/-- An entry holds the report that is asked for about one of the sources, under its key. -/
def Stored (opts : BatchOptions) (sources : List Bytes) (e : String × Option Report) : Prop :=
  ∃ s ∈ sources, e.1 = (opts.request s).key ∧ ∃ r, (opts.request s).fresh.1 = .ok r ∧ e.2 = some r

/-- The entries of the cache, if there is one, are right. -/
def HoldsStored (opts : BatchOptions) (sources : List Bytes) (cache : Option ReportCache) : Prop :=
  ∀ c, cache = some c → c.Holds (Stored opts sources)

namespace Task

/-- The steps that a task has still to take, at most. -/
def left : Task → Nat
  | waiting => 2
  | asked _ => 1
  | finished _ => 0
  | broken _ => 0

theorem left_ofOutcome (path : Bytes) (out : Request.Outcome) :
    (ofOutcome path out).1.left = 0 := by
  unfold ofOutcome
  split
  · rfl
  · split <;> rfl

variable {out : Request.Outcome}

theorem start_hit {q : Request} (h : q.ask c = (some out, d)) (path : Bytes) :
    start path q (some c) = ((ofOutcome path out).1, some d, (ofOutcome path out).2) := by
  unfold start
  dsimp only
  rw [h]

theorem start_miss {q : Request} (h : q.ask c = (none, d)) (path : Bytes) :
    start path q (some c) = (.asked q, some d, []) := by
  unfold start
  dsimp only
  rw [h]

/-- After its start, a task has one step left at most. -/
theorem left_start (path : Bytes) (q : Request) (cache : Option ReportCache) :
    (start path q cache).1.left ≤ 1 := by
  have hended : ∀ out, (ofOutcome path out).1.left ≤ 1 := fun out => by
    rw [left_ofOutcome]
    exact Nat.zero_le 1
  match cache with
  | none => exact hended q.runUncached
  | some c =>
    obtain ⟨v, out, -, hask, -⟩ | hask := q.ask_cases c
    · rw [start_hit hask]
      exact hended out
    · rw [start_miss hask]
      exact Nat.le_refl 1

/-- Every step of a task leaves less of it. -/
theorem left_advance (file : SourceFile) (cache : Option ReportCache) (task : Task) :
    (task.advance opts fs file cache).1.left ≤ task.left - 1 := by
  cases task with
  | waiting =>
    unfold advance
    cases fs.read file.fullPath with
    | error e => exact Nat.zero_le 1
    | ok source => exact left_start _ _ cache
  | asked q =>
    match cache with
    | none => exact Nat.le_of_eq (left_ofOutcome file.path q.runUncached)
    | some c => exact Nat.le_of_eq (left_ofOutcome file.path (q.make c))
  | finished r => exact Nat.le_refl 0
  | broken f => exact Nat.le_refl 0

theorem ofOutcome_ok {r : Option Report} (h : out.result = .ok r)
    (path : Bytes) : (ofOutcome path out).1 = .finished { path := path, report := r } := by
  unfold ofOutcome
  rw [h]

theorem ofOutcome_error {text : String}
    (h : out.result = .error e) (htext : e.message? = some text) (path : Bytes) :
    (ofOutcome path out).1 = .finished { path := path, error := text } := by
  unfold ofOutcome
  rw [h]
  dsimp only
  rw [htext]

/-- A task with the outcome of its file alone is right. -/
theorem right_ofOutcome (hread : fs.read file.fullPath = .ok source)
    (hout : out.result = ((opts.request source).run none).result) :
    (ofOutcome file.path out).1.Right opts fs file := by
  have hfresh : ((opts.request source).run none).result = (opts.request source).fresh.1.map some :=
    rfl
  cases hrun : ((opts.request source).run none).result with
  | ok r =>
    rw [ofOutcome_ok (hout.trans hrun)]
    show _ = aloneReport opts fs file
    simp only [aloneReport, hread, hrun]
  | error e =>
    rw [hrun] at hfresh
    obtain ⟨text, htext⟩ : ∃ text, e.message? = some text := by
      cases h : (opts.request source).fresh.1 with
      | ok r =>
        rw [h] at hfresh
        cases hfresh
      | error e' =>
        rw [h] at hfresh
        cases hfresh
        exact Request.message_of_fresh rfl h
    rw [ofOutcome_error (hout.trans hrun) htext]
    show _ = aloneReport opts fs file
    simp only [aloneReport, hread, hrun, RunError.text, htext, Option.getD_some]

/-- What a task begins with is right, and so is what it leaves in the cache. -/
theorem right_start (hsep : opts.Separates (Batch.sources fs files)) (hfile : file ∈ files)
    (hcache : HoldsStored opts (Batch.sources fs files) cache)
    (hread : fs.read file.fullPath = .ok source) :
    (start file.path (opts.request source) cache).1.Right opts fs file ∧
      HoldsStored opts (Batch.sources fs files)
      (start file.path (opts.request source) cache).2.1 := by
  match cache with
  | none => exact ⟨right_ofOutcome hread rfl, fun c hc => by cases hc⟩
  | some c =>
    have hget := (hcache c rfl).get (opts.request source).key
    obtain ⟨v, out, hfind, hask, hout⟩ | hask := (opts.request source).ask_cases c
    · rw [start_hit hask]
      refine ⟨right_ofOutcome hread ?_, fun d hd => Option.some.inj hd ▸ hget⟩
      -- the entry is of a source with the same key, so of this source
      obtain ⟨t, ht, hkey, r, hfresh, rfl⟩ := hcache c rfl _ (Recency.mem_of_find? hfind)
      obtain rfl := hsep.eq_of_key (Batch.mem_sources hfile hread) ht hkey
      show out.result = (opts.request source).fresh.1.map some
      rw [hout, hfresh]
      rfl
    · rw [start_miss hask]
      exact ⟨⟨source, hread, rfl⟩, fun d hd => Option.some.inj hd ▸ hget⟩

/-- A step keeps the task and the cache right. -/
theorem Right.advance {file : SourceFile} {cache : Option ReportCache} {task : Task}
    (hsep : opts.Separates (Batch.sources fs files)) (hfile : file ∈ files)
    (hcache : HoldsStored opts (Batch.sources fs files) cache) (h : task.Right opts fs file) :
    (task.advance opts fs file cache).1.Right opts fs file ∧
      HoldsStored opts (Batch.sources fs files) (task.advance opts fs file cache).2.1 := by
  cases task with
  | waiting =>
    unfold Task.advance
    cases hread : fs.read file.fullPath with
    | error e =>
      refine ⟨?_, hcache⟩
      show _ = aloneReport opts fs file
      simp only [aloneReport, hread]
    | ok source => exact right_start hsep hfile hcache hread
  | asked q =>
    obtain ⟨source, hread, rfl⟩ := h
    match cache with
    | none => exact right_start hsep hfile hcache hread
    | some c =>
      refine ⟨right_ofOutcome hread ((opts.request source).result_make c), fun d hd => ?_⟩
      refine Request.holds_make (hcache c rfl) (fun r hr => ?_) hd
      exact ⟨source, Batch.mem_sources hfile hread, rfl, r, hr, rfl⟩
  | finished r => exact ⟨h, hcache⟩
  | broken f => exact ⟨h, hcache⟩

end Task

/-! ## Schedules -/

namespace Batch

/-- What is known of a batch at any time. -/
structure Right (opts : BatchOptions) (fs : Files) (files : List SourceFile) (b : Batch) :
    Prop where
  begun : b.tasks.map Prod.fst = files
  tasks : ∀ t ∈ b.tasks, t.2.Right opts fs t.1
  cache : HoldsStored opts (sources fs files) b.cache

/-- All tasks have ended. -/
def Done (b : Batch) : Prop := ∀ t ∈ b.tasks, t.2.left = 0

/-- A batch is right before its first step. -/
theorem right_ofFiles (hempty : ∀ c, cache = some c → c.entries = []) :
    (ofFiles files cache).Right opts fs files where
  begun := by
    show (files.map fun f => (f, Task.waiting)).map Prod.fst = files
    rw [List.map_map]
    exact List.map_id files
  tasks t ht := by
    obtain ⟨f, -, rfl⟩ := List.mem_map.mp ht
    exact trivial
  cache c hc e he := by
    rw [hempty c hc] at he
    cases he

theorem step_eq {task : Task} (h : b.tasks[i]? = some (file, task)) : b.step opts fs i =
      { tasks := b.tasks.set i (file, (task.advance opts fs file b.cache).1)
        cache := (task.advance opts fs file b.cache).2.1
        entries := b.entries ++ (task.advance opts fs file b.cache).2.2 } := by
  unfold step
  rw [h]

theorem step_of_none (h : b.tasks[i]? = none) : b.step opts fs i = b := by
  unfold step
  rw [h]

theorem set_same {α : Type} {xs : List α} {x : α} (h : xs[i]? = some x) : xs.set i x = xs := by
  obtain ⟨hi, rfl⟩ := List.getElem?_eq_some_iff.mp h
  exact List.set_getElem_self hi

/-- A step of any task keeps the batch right. -/
theorem Right.step {b : Batch} (hsep : opts.Separates (sources fs files))
    (h : b.Right opts fs files) (i : Nat) : (b.step opts fs i).Right opts fs files := by
  cases hi : b.tasks[i]? with
  | none =>
    rw [step_of_none hi]
    exact h
  | some t =>
    obtain ⟨file, task⟩ := t
    have hmem := List.mem_of_getElem? hi
    have hfile : file ∈ files := by
      rw [← h.begun]
      exact List.mem_map.mpr ⟨_, hmem, rfl⟩
    obtain ⟨htask, hcache⟩ := (h.tasks _ hmem).advance hsep hfile h.cache
    rw [step_eq hi]
    refine ⟨?_, fun t ht => ?_, hcache⟩
    · show (b.tasks.set i _).map Prod.fst = files
      rw [List.map_set, ← h.begun]
      exact set_same (by rw [List.getElem?_map, hi]; rfl)
    · obtain ht | rfl := List.mem_or_eq_of_mem_set ht
      · exact h.tasks t ht
      · exact htask

/-- A schedule keeps the batch right. -/
theorem Right.follow {b : Batch} (hsep : opts.Separates (sources fs files))
    (h : b.Right opts fs files) (schedule : List Nat) :
    (b.follow opts fs schedule).Right opts fs files := by
  induction schedule generalizing b with
  | nil => exact h
  | cons i schedule ih => exact ih (h.step hsep i)

/-- If all is done and right, the results are those of the files alone. -/
theorem Right.results {b : Batch} (h : b.Right opts fs files) (hdone : b.Done) :
    b.results = .ok (files.map (aloneReport opts fs)) := by
  rw [← h.begun, List.map_map]
  unfold Batch.results
  rw [mapM_eq_ok, List.forall₂_map_right_iff, List.forall₂_same]
  intro t ht
  obtain ⟨file, task⟩ := t
  have hright : task.Right opts fs file := h.tasks _ ht
  have hleft : task.left = 0 := hdone _ ht
  cases task with
  | waiting => cases hleft
  | asked q => cases hleft
  | finished r => exact congrArg Except.ok hright
  | broken f => exact hright.elim

/-! ## What is left to do -/

/-- The steps that a task with a number has still to take, at most. -/
def leftAt (b : Batch) (i : Nat) : Nat := (b.tasks[i]?.map (·.2.left)).getD 0

/-- A step works on one task and leaves the others alone. -/
theorem leftAt_step (b : Batch) (i j : Nat) :
    (b.step opts fs i).leftAt j ≤ b.leftAt j - if i = j then 1 else 0 := by
  cases hi : b.tasks[i]? with
  | none =>
    rw [step_of_none hi]
    split
    next hij =>
      subst hij
      rw [leftAt, hi]
      exact Nat.zero_le _
    next => exact Nat.le_refl _
  | some t =>
    obtain ⟨file, task⟩ := t
    rw [step_eq hi]
    unfold leftAt
    dsimp only
    split
    next hij =>
      subst hij
      rw [List.getElem?_set_self (List.getElem?_eq_some_iff.mp hi).1, hi]
      exact Task.left_advance file b.cache task
    next hij =>
      rw [List.getElem?_set_ne hij]
      exact Nat.le_refl _

/-- So a schedule leaves less of each task that it names. -/
theorem leftAt_follow (b : Batch) (schedule : List Nat) (j : Nat) :
    (b.follow opts fs schedule).leftAt j ≤ b.leftAt j - schedule.count j := by
  induction schedule generalizing b with
  | nil => exact Nat.le_refl _
  | cons i schedule ih =>
    have hstep : (b.step opts fs i).leftAt j ≤ b.leftAt j - if i = j then 1 else 0 :=
      leftAt_step b i j
    have hrest := ih (b.step opts fs i)
    show ((b.step opts fs i).follow opts fs schedule).leftAt j ≤ _
    rw [List.count_cons]
    by_cases hij : i = j
    · subst hij
      simp only [if_true, beq_self_eq_true] at hstep ⊢
      omega
    · simp only [hij, if_false, beq_iff_eq] at hstep ⊢
      omega

theorem leftAt_le_two (b : Batch) (i : Nat) : b.leftAt i ≤ 2 := by
  unfold leftAt
  cases b.tasks[i]? with
  | none => exact Nat.zero_le 2
  | some t => cases h : t.2 <;> simp [h, Task.left]

theorem length_follow (b : Batch) (schedule : List Nat) :
    (b.follow opts fs schedule).tasks.length = b.tasks.length := by
  induction schedule generalizing b with
  | nil => rfl
  | cons i schedule ih =>
    refine (ih (b.step opts fs i)).trans ?_
    cases hi : b.tasks[i]? with
    | none => rw [step_of_none hi]
    | some t =>
      rw [step_eq hi]
      exact List.length_set

/-- Two steps for every task are enough. -/
theorem done_follow {schedule : List Nat}
    (h : ∀ i, i < b.tasks.length → 2 ≤ schedule.count i) : (b.follow opts fs schedule).Done := by
  intro t ht
  obtain ⟨i, hi⟩ := List.mem_iff_getElem?.mp ht
  have hlt : i < b.tasks.length := by
    rw [← length_follow b schedule]
    exact (List.getElem?_eq_some_iff.mp hi).1
  have hfollow : (b.follow opts fs schedule).leftAt i ≤ b.leftAt i - schedule.count i :=
    leftAt_follow b schedule i
  have hleft : (b.follow opts fs schedule).leftAt i = t.2.left := by
    rw [leftAt, hi]
    rfl
  have htwo := b.leftAt_le_two i
  have hcount := h i hlt
  omega

/-- The order of the files names each of them twice. -/
theorem two_le_count_inOrder {n : Nat} (h : i < n) : 2 ≤ (inOrder n).count i := by
  have hsub : [i, i].Sublist (inOrder n) := by
    unfold inOrder
    rw [List.flatMap_def]
    exact List.sublist_flatten_of_mem (List.mem_map.mpr ⟨i, List.mem_range.mpr h, rfl⟩)
  have hcount := hsub.count_le i
  simpa using hcount

/-- A schedule that ends all tasks gives every file the outcome that it has alone. -/
theorem runScheduled_eq {schedule : List Nat}
    (hcancelled : opts.cancelled = false) (hempty : ∀ c, cache = some c → c.entries = [])
    (hsep : opts.Separates (sources fs files))
    (hdone : ((ofFiles files cache).follow opts fs schedule).Done) :
    ∃ out, runScheduled opts fs cache files schedule = .ok out ∧
      out.results = files.map (aloneReport opts fs) := by
  have hresults := ((right_ofFiles hempty).follow hsep schedule).results hdone
  unfold runScheduled
  dsimp only
  rw [hcancelled, hresults]
  exact ⟨_, rfl, rfl⟩

/-- Running the files in their order ends in the results of the files alone. -/
theorem runFiles_eq (hcancelled : opts.cancelled = false)
    (hempty : ∀ c, cache = some c → c.entries = []) (hsep : opts.Separates (sources fs files)) :
    ∃ out, runFiles opts fs cache files = .ok out ∧
      out.results = files.map (aloneReport opts fs) := by
  refine runScheduled_eq hcancelled hempty hsep (done_follow fun i hi => ?_)
  refine two_le_count_inOrder ?_
  rw [ofFiles, List.length_map] at hi
  exact hi

end Batch

/-! ## Workers -/

/-- A batch whose tasks are begun in order; the number says how many have been. -/
structure Pool where
  batch : Batch
  begun : Nat

/-- The number of tasks that may be at work at once; zero workers or less stand for one for each
processor. -/
def workerLimit (workers : Int) (processors : Nat) : Nat :=
  if workers ≤ 0 then processors else workers.toNat

namespace Pool

/-- What can happen next in a pool. -/
inductive Move where
  /-- The next task is begun. -/
  | begin
  /-- A task takes a step. -/
  | step (task : Nat)
deriving DecidableEq

def ofFiles (files : List SourceFile) (cache : Option ReportCache) : Pool :=
  { batch := Batch.ofFiles files cache, begun := 0 }

/-- The number of tasks at work. -/
def atWork (p : Pool) : Nat := (p.batch.tasks.take p.begun).countP fun t => t.2.left != 0

/-- A task is begun when a worker is free; a task that was begun takes steps until it has ended. -/
def Allows (p : Pool) (limit : Nat) : Move → Prop
  | .begin => p.begun < p.batch.tasks.length ∧ p.atWork < limit
  | .step i => i < p.begun ∧ p.batch.leftAt i ≠ 0

instance (p : Pool) (limit : Nat) (m : Move) : Decidable (p.Allows limit m) := by
  cases m <;> unfold Allows <;> infer_instance

/-- The pool after a move. -/
def move (opts : BatchOptions) (fs : Files) (p : Pool) : Move → Pool
  | .begin => { p with begun := p.begun + 1 }
  | .step i => { p with batch := p.batch.step opts fs i }

/-- The pool after some moves. -/
def after (opts : BatchOptions) (fs : Files) (p : Pool) (moves : List Move) : Pool :=
  moves.foldl (move opts fs) p

/-- Every move can happen when its turn comes. -/
def Legal (opts : BatchOptions) (fs : Files) (limit : Nat) : Pool → List Move → Prop
  | _, [] => True
  | p, m :: rest => p.Allows limit m ∧ Legal opts fs limit (p.move opts fs m) rest

instance Legal.decidable (opts : BatchOptions) (fs : Files) (limit : Nat) :
    (p : Pool) → (moves : List Move) → Decidable (Legal opts fs limit p moves)
  | _, [] => isTrue trivial
  | p, m :: rest =>
    have : Decidable (Legal opts fs limit (p.move opts fs m) rest) :=
      Legal.decidable opts fs limit _ rest
    inferInstanceAs (Decidable (p.Allows limit m ∧ Legal opts fs limit (p.move opts fs m) rest))

/-- The task that takes a step in a move. -/
def Move.task? : Move → Option Nat
  | .begin => none
  | .step i => some i

/-- The order in which the tasks take steps. -/
def schedule (moves : List Move) : List Nat := moves.filterMap Move.task?

/-- The workers follow the schedule of their moves. -/
theorem batch_after (p : Pool) (moves : List Move) :
    (p.after opts fs moves).batch = p.batch.follow opts fs (schedule moves) := by
  induction moves generalizing p with
  | nil => rfl
  | cons m moves ih =>
    refine (ih (p.move opts fs m)).trans ?_
    cases m <;> rfl

/-- While a batch is not done, a task has something left. -/
theorem exists_leftAt (h : ¬ b.Done) : ∃ i, i < b.tasks.length ∧ b.leftAt i ≠ 0 := by
  unfold Batch.Done at h
  push Not at h
  obtain ⟨t, ht, hleft⟩ := h
  obtain ⟨i, hi⟩ := List.mem_iff_getElem?.mp ht
  refine ⟨i, (List.getElem?_eq_some_iff.mp hi).1, ?_⟩
  rw [Batch.leftAt, hi]
  exact hleft

variable {p : Pool} {limit : Nat}

/-- Until all tasks have ended something can happen: a task that was begun takes a step, or all
workers are free and the next task is begun. -/
theorem exists_move (hlimit : 0 < limit) (h : ¬ p.batch.Done) : ∃ m, p.Allows limit m := by
  by_cases hwork : ∃ i, i < p.begun ∧ p.batch.leftAt i ≠ 0
  · obtain ⟨i, hi⟩ := hwork
    exact ⟨.step i, hi⟩
  · push Not at hwork
    obtain ⟨i, hi, hleft⟩ := exists_leftAt h
    have hwaits : p.begun < p.batch.tasks.length := by
      by_contra hbegun
      exact hleft (hwork i (by omega))
    have hfree : p.atWork = 0 := by
      unfold atWork
      rw [List.countP_eq_zero]
      intro t ht
      obtain ⟨j, hj⟩ := List.mem_iff_getElem?.mp ht
      have hbegun : j < p.begun := by
        have := (List.getElem?_eq_some_iff.mp hj).1
        rw [List.length_take] at this
        omega
      have hended := hwork j hbegun
      rw [List.getElem?_take_of_lt hbegun] at hj
      rw [Batch.leftAt, hj] at hended
      simpa using hended
    exact ⟨.begin, hwaits, by omega⟩

/-- The steps that tasks have still to take, at most. -/
def stepsLeft : List (SourceFile × Task) → Nat
  | [] => 0
  | t :: rest => t.2.left + stepsLeft rest

/-- The steps left when one task is replaced. -/
theorem stepsLeft_set {ts : List (SourceFile × Task)} {t u : SourceFile × Task}
    (h : ts[i]? = some t) : stepsLeft (ts.set i u) + t.2.left = stepsLeft ts + u.2.left := by
  induction ts generalizing i with
  | nil => cases h
  | cons s rest ih =>
    cases i with
    | zero =>
      cases h
      show u.2.left + stepsLeft rest + _ = _ + stepsLeft rest + _
      omega
    | succ i =>
      have hrest := ih (i := i) h
      show s.2.left + stepsLeft (rest.set i u) + _ = s.2.left + stepsLeft rest + _
      omega

/-- At the start there are two steps for every file. -/
theorem stepsLeft_waiting (files : List SourceFile) :
    stepsLeft (files.map fun f => (f, .waiting)) = 2 * files.length := by
  induction files with
  | nil => rfl
  | cons f files ih =>
    show 2 + stepsLeft (files.map fun f => (f, .waiting)) = _
    rw [ih, List.length_cons]
    omega

/-- The moves that a pool has still to make, at most. -/
def movesLeft (p : Pool) : Nat := (p.batch.tasks.length - p.begun) + stepsLeft p.batch.tasks

/-- Every move of the pool leaves less to do. -/
theorem movesLeft_move {m : Move} (h : p.Allows limit m) :
    (p.move opts fs m).movesLeft < p.movesLeft := by
  cases m with
  | begin =>
    obtain ⟨hbegun, -⟩ := h
    show p.batch.tasks.length - (p.begun + 1) + stepsLeft p.batch.tasks <
      p.batch.tasks.length - p.begun + stepsLeft p.batch.tasks
    omega
  | step i =>
    obtain ⟨-, hleft⟩ := h
    show (p.batch.step opts fs i).tasks.length - p.begun +
        stepsLeft (p.batch.step opts fs i).tasks <
      p.batch.tasks.length - p.begun + stepsLeft p.batch.tasks
    cases hi : p.batch.tasks[i]? with
    | none =>
      rw [Batch.leftAt, hi] at hleft
      exact absurd rfl hleft
    | some t =>
      obtain ⟨file, task⟩ := t
      have htask : task.left ≠ 0 := by
        rw [Batch.leftAt, hi] at hleft
        exact hleft
      -- the task has a step less to go, the others as many as before
      have hadvance : (task.advance opts fs file p.batch.cache).1.left ≤ task.left - 1 :=
        task.left_advance file p.batch.cache
      have hset := stepsLeft_set (u := (file, (task.advance opts fs file p.batch.cache).1)) hi
      rw [Batch.step_eq hi]
      dsimp only at hset ⊢
      rw [List.length_set]
      omega

/-- So there is a bound on the moves. -/
theorem Legal.length_le {moves : List Move}
    (h : Legal opts fs limit p moves) : moves.length ≤ p.movesLeft := by
  induction moves generalizing p with
  | nil => exact Nat.zero_le _
  | cons m moves ih =>
    obtain ⟨hallows, hrest⟩ := h
    have hless : (p.move opts fs m).movesLeft < p.movesLeft := movesLeft_move hallows
    have hlength := ih hrest
    rw [List.length_cons]
    omega

theorem movesLeft_ofFiles (cache : Option ReportCache) :
    (ofFiles files cache).movesLeft = 3 * files.length := by
  show (files.map fun f => (f, Task.waiting)).length - 0 +
    stepsLeft (files.map fun f => (f, .waiting)) = _
  rw [stepsLeft_waiting, List.length_map]
  omega

end Pool

/--
**The outcomes of a batch do not depend on the schedule.**  Files are analysed by a pool of workers,
with a cache that is empty at first or without one, and the digest tells their sources apart.
Whatever moves the pool makes,

* it makes at most three for each file, and it can make another one until all tasks have ended;
* then the outcomes are those of the files alone, in the order of the files.

The batch that finishes each file before the next has the same outcomes, whatever stands in the
place of another file, and so has the batch of a single file without a cache.
-/
theorem batch_outcomes_as_alone (opts : BatchOptions) (fs : Files) (files : List SourceFile)
    (cache : Option ReportCache) (workers : Int) (processors : Nat) (hprocessors : 0 < processors)
    (hcancelled : opts.cancelled = false) (hempty : ∀ c, cache = some c → c.entries = [])
    (hsep : opts.Separates (Batch.sources fs files)) :
    (∀ moves, Pool.Legal opts fs (workerLimit workers processors) (Pool.ofFiles files cache) moves →
      let p := (Pool.ofFiles files cache).after opts fs moves
      moves.length ≤ 3 * files.length ∧
        (p.batch.Done ∨ ∃ m, p.Allows (workerLimit workers processors) m) ∧
        (p.batch.Done → p.batch.results = .ok (files.map (aloneReport opts fs)) ∧
          ∃ out, Batch.runScheduled opts fs cache files (Pool.schedule moves) = .ok out ∧
            out.results = files.map (aloneReport opts fs))) ∧
    (∃ out, Batch.runFiles opts fs cache files = .ok out ∧
      out.results = files.map (aloneReport opts fs)) ∧
    (∀ j other, opts.Separates (Batch.sources fs (files.set j other)) →
      ∃ out, Batch.runFiles opts fs cache (files.set j other) = .ok out ∧
        ∀ i, i ≠ j → out.results[i]? = (files.map (aloneReport opts fs))[i]?) ∧
    ∀ f ∈ files, (aloneReport opts fs f).path = f.path ∧
      ∃ out, Batch.runFiles opts fs none [f] = .ok out ∧ out.results = [aloneReport opts fs f] := by
  refine ⟨?_, Batch.runFiles_eq hcancelled hempty hsep, ?_, ?_⟩
  · intro moves hlegal p
    have hlimit : 0 < workerLimit workers processors := by
      unfold workerLimit
      split <;> omega
    -- what the workers do is a schedule of the batch
    have hbatch : p.batch = (Batch.ofFiles files cache).follow opts fs (Pool.schedule moves) :=
      Pool.batch_after (Pool.ofFiles files cache) moves
    refine ⟨?_, ?_, fun hdone => ?_⟩
    · rw [← Pool.movesLeft_ofFiles cache]
      exact hlegal.length_le
    · by_cases hdone : p.batch.Done
      · exact .inl hdone
      · exact .inr (Pool.exists_move hlimit hdone)
    · rw [hbatch] at hdone ⊢
      exact ⟨((Batch.right_ofFiles hempty).follow hsep _).results hdone,
        Batch.runScheduled_eq hcancelled hempty hsep hdone⟩
  · intro j other hother
    obtain ⟨out, hout, hresults⟩ := Batch.runFiles_eq hcancelled hempty hother
    refine ⟨out, hout, fun i hi => ?_⟩
    rw [hresults, List.getElem?_map, List.getElem?_map, List.getElem?_set_ne hi.symm]
  · intro f hf
    refine ⟨path_aloneReport opts fs f, ?_⟩
    -- one file of the list is told apart as well
    have hone : opts.Separates (Batch.sources fs [f]) := by
      refine hsep.mono (List.filterMap_subset _ fun g hg => ?_)
      rw [List.mem_singleton.mp hg]
      exact hf
    exact Batch.runFiles_eq hcancelled (fun c hc => by cases hc) hone

/-- Two files with the same text, and one with a text that is refused. -/
def raceFiles : Files where
  root := .directory
    [("first", .file (Text.toBytes "int x; x := 1;")),
      ("second", .file (Text.toBytes "int x; x := 1;")),
      ("third", .file (Text.toBytes "write y;"))]

def raceList : List SourceFile := ["first", "second", "third"].map fun name => ⟨name, name, 0⟩

def raceOptions : BatchOptions := { analysis := .sign, solver := .worklist .lifo }

/-- Two workers, and a cache with room for one entry. -/
def racePool : Pool := Pool.ofFiles raceList (some { capacity := 1 })

/-- Each of the first two tasks asks the cache before the other stores. -/
def raceMoves : List Pool.Move :=
  [.begin, .begin, .step 0, .step 1, .step 0, .begin, .step 2, .step 1, .step 2]

/-- The report is made twice, the third file fails, and the outcomes are as alone. -/
theorem batch_outcomes_as_alone_race :
    Pool.Legal raceOptions raceFiles 2 racePool raceMoves ∧
      (racePool.after raceOptions raceFiles raceMoves).batch.Done ∧
      (racePool.after raceOptions raceFiles raceMoves).batch.results =
        .ok (raceList.map (aloneReport raceOptions raceFiles)) ∧
      (raceList.map (aloneReport raceOptions raceFiles)).map FileReport.failed =
        [false, false, true] := by
  have hlegal : Pool.Legal raceOptions raceFiles 2 racePool raceMoves := by decide +kernel
  have hdone : (racePool.after raceOptions raceFiles raceMoves).batch.Done := by
    unfold Batch.Done
    decide +kernel
  have hsep : raceOptions.Separates (Batch.sources raceFiles raceList) := by
    unfold BatchOptions.Separates
    decide +kernel
  have hmain := batch_outcomes_as_alone raceOptions raceFiles raceList (some { capacity := 1 }) 2 1
    Nat.one_pos rfl (fun c hc => by cases hc; rfl) hsep
  exact ⟨hlegal, hdone, ((hmain.1 raceMoves hlegal).2.2 hdone).1, by decide +kernel⟩

end MicroFlow
