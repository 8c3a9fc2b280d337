import MicroFlow.Files.Scan
import MicroFlow.Report.Encode
import MicroFlow.Run.Cached

/-!
# Analysing many files

Every file has its own outcome: a report, or the text of an error.  A file that fails does
not stop the others, and the outcomes have the order of the files.

The files of a batch share a cache.  A file is a `Task` that advances in steps: it asks the
cache, and if the cache has no report it makes one and stores it.  A schedule says which
task takes the next step, so any interleaving of the tasks is a schedule; `inOrder` is the
one that finishes each file before the next.
-/

namespace MicroFlow

open MicroFlow.Text (Bytes)

/-- The outcome for one file: a report, or an error. -/
structure FileReport where
  path : Bytes
  report : Option Report := none
  error : String := ""
deriving DecidableEq, Repr, Inhabited

/-- The file could not be analysed. -/
def FileReport.failed (r : FileReport) : Bool := r.error != ""

def FileReport.toData (dialect : Report.Dialect) (r : FileReport) : Data :=
  .record ([("path", .text (Text.ofBytes r.path))] ++
    (match r.report with
      | some report => [("report", report.toData dialect)]
      | none => []) ++
    Data.textUnlessEmpty "error" r.error)

/-- Why a batch fails as a whole. -/
inductive BatchError where
  | scan (root : Bytes) (e : ScanError)
  | cancelled
  | fault (f : Fault)
deriving Repr

def BatchError.message? : BatchError → Option String
  | scan root e => some ("scanning " ++ Text.ofBytes root ++ ": " ++ e.message)
  | cancelled => RunError.cancelled.message?
  | fault f => f.message?

/-- How the files of a batch are analysed. -/
structure BatchOptions where
  analysis : AnalysisKind
  solver : SolverKind
  cancelled : Bool := false

/-- The outcomes of a batch, the cache behind it, and what was logged. -/
structure BatchOutcome where
  results : List FileReport
  cache : Option ReportCache
  entries : List LogEntry

/-! ## Tasks -/

/-- Where the analysis of one file stands. -/
inductive Task where
  | waiting
  /-- The cache has been asked and holds no report. -/
  | asked (q : Request)
  | finished (r : FileReport)
  | broken (f : Fault)
deriving Inhabited

/-- A batch at work: the files with their tasks, the cache they share, and what was logged. -/
structure Batch where
  tasks : List (SourceFile × Task)
  cache : Option ReportCache
  entries : List LogEntry := []

namespace Task

/-- The task of a file whose analysis has an outcome, and what is logged. -/
def ofOutcome (path : Bytes) (out : Request.Outcome) : Task × List LogEntry :=
  match out.result with
  | .ok r => (.finished { path := path, report := r }, out.entries)
  | .error e =>
    match e.message? with
    | none => (.broken .brokenReference, out.entries)
    | some message =>
      let warning : LogEntry := ⟨.warn, "analysis failed",
        [.text "file", .text (Text.ofBytes path), .text "error", .failure message]⟩
      (.finished { path := path, error := message }, out.entries ++ [warning])

/-- Begins with the contents of a file: asks the cache, or does all the work if there is none. -/
def start (path : Bytes) (q : Request) :
    Option ReportCache → Task × Option ReportCache × List LogEntry
  | none =>
    let (task, entries) := ofOutcome path q.runUncached
    (task, none, entries)
  | some cache =>
    match q.ask cache with
    | (some out, cache) =>
      let (task, entries) := ofOutcome path out
      (task, some cache, entries)
    | (none, cache) => (.asked q, some cache, [])

/-- One step of a task. -/
def advance (opts : BatchOptions) (fs : Files) (file : SourceFile) (cache : Option ReportCache) :
    Task → Task × Option ReportCache × List LogEntry
  | waiting =>
    match fs.read file.fullPath with
    | .error e => (.finished { path := file.path, error := e.message }, cache, [])
    | .ok source =>
      start file.path { source := source, analysis := opts.analysis, solver := opts.solver } cache
  | asked q =>
    match cache with
    | none => start file.path q none
    | some c =>
      let out := q.make c
      let (task, entries) := ofOutcome file.path out
      (task, out.cache, entries)
  | task => (task, cache, [])

end Task

/-! ## Batches -/

namespace Batch

/-- A batch that has not begun. -/
def ofFiles (files : List SourceFile) (cache : Option ReportCache) : Batch :=
  { tasks := files.map fun f => (f, .waiting), cache := cache }

/-- The task with a number takes a step. -/
def step (opts : BatchOptions) (fs : Files) (b : Batch) (i : Nat) : Batch :=
  match b.tasks[i]? with
  | none => b
  | some (file, task) =>
    let (task, cache, entries) := task.advance opts fs file b.cache
    { tasks := b.tasks.set i (file, task), cache := cache, entries := b.entries ++ entries }

/-- The tasks take steps in the order of a schedule. -/
def follow (opts : BatchOptions) (fs : Files) (b : Batch) (schedule : List Nat) : Batch :=
  schedule.foldl (step opts fs) b

/-- The schedule that finishes every file before the next. -/
def inOrder (n : Nat) : List Nat := (List.range n).flatMap fun i => [i, i]

/-- The outcomes of a batch whose tasks have finished. -/
def results (b : Batch) : Except BatchError (List FileReport) :=
  b.tasks.mapM fun (file, task) =>
    match task with
    | .finished r => .ok r
    | .broken f => .error (.fault f)
    | _ => .ok { path := file.path }

/-- Analyses files in a schedule. -/
def runScheduled (opts : BatchOptions) (fs : Files) (cache : Option ReportCache)
    (files : List SourceFile) (schedule : List Nat) : Except BatchError BatchOutcome :=
  if opts.cancelled && !files.isEmpty then .error .cancelled
  else do
    let b := follow opts fs (ofFiles files cache) schedule
    let finished : LogEntry := ⟨.debug, "batch finished", [.text "files", .int files.length]⟩
    return { results := ← b.results, cache := b.cache, entries := b.entries ++ [finished] }

/-- Analyses files one after the other. -/
def runFiles (opts : BatchOptions) (fs : Files) (cache : Option ReportCache)
    (files : List SourceFile) : Except BatchError BatchOutcome :=
  runScheduled opts fs cache files (inOrder files.length)

/-- Analyses the source files below a root. -/
def runDirectory (opts : BatchOptions) (fs : Files) (cache : Option ReportCache) (root : Bytes) :
    Except BatchError BatchOutcome :=
  match scan {} fs root with
  | .error e => .error (.scan root e)
  | .ok files => runFiles opts fs cache files

end Batch

end MicroFlow
