import MicroFlow.Cache.Key
import MicroFlow.Cache.Recency
import MicroFlow.Run.Solve

/-!
# Analysing with a cache

A run looks in the cache first.  The key is made from the analysis, the solver and the
source text, so an entry is the report that the run would make.  A report that had to
be made is stored; a run that fails stores nothing.
-/

namespace MicroFlow

/-- A cache of reports.  An entry can hold no report. -/
abbrev ReportCache := Recency (Option Report)

/-- What to analyse, and how. -/
structure Request where
  source : Text.Bytes
  analysis : AnalysisKind
  solver : SolverKind
  cancelled : Bool := false
deriving Repr, Inhabited

namespace Request

/-- The key under which the report is stored. -/
def key (q : Request) : String := Cache.key q.source q.analysis.name q.solver.label

/-- Compiles and solves, with what is logged on the way. -/
def fresh (q : Request) : Except RunError Report × List LogEntry :=
  match compiled q.source with
  | .error e => (.error e, [])
  | .ok b =>
    let built : LogEntry := ⟨.debug, "program graph built",
      [.text "nodes", .int b.graph.nodes.size, .text "edges", .int b.graph.edges.size]⟩
    match solve q.cancelled b q.analysis q.solver with
    | .error e => (.error e, [built])
    | .ok r => (.ok r, [built, ⟨.debug, "fixpoint reached",
        [.text "analysis", .text r.analysis, .text "solver", .text r.solver, .text "steps",
          .int r.steps]⟩])

/-- The outcome of a run: a report, the cache behind it, and what was logged. -/
structure Outcome where
  result : Except RunError (Option Report)
  cache : Option ReportCache
  entries : List LogEntry

/-- Runs without a cache. -/
def runUncached (q : Request) : Outcome :=
  if q.cancelled then ⟨.error .cancelled, none, []⟩
  else
    let (result, entries) := q.fresh
    ⟨result.map some, none, entries⟩

/-- Asks a cache: the outcome if it holds one, and the cache, in which the entry is now recent. -/
def ask (q : Request) (cache : ReportCache) : Option Outcome × ReportCache :=
  match cache.get q.key with
  | (some r, cache) =>
    (some ⟨.ok r, some cache, [⟨.info, "report served from cache",
      [.text "analysis", .text q.analysis.name, .text "solver", .text q.solver.label]⟩]⟩, cache)
  | (none, cache) => (none, cache)

/-- Makes the report and stores it in a cache. -/
def make (q : Request) (cache : ReportCache) : Outcome :=
  match q.fresh with
  | (.error e, entries) => ⟨.error e, some cache, entries⟩
  | (.ok r, entries) =>
    let cache := cache.set q.key (some r)
    ⟨.ok (some r), some cache, entries ++
      [⟨.info, "report cached", [.text "entries", .int cache.size]⟩]⟩

def runCached (q : Request) (cache : ReportCache) : Outcome :=
  if q.cancelled then ⟨.error .cancelled, some cache, []⟩
  else
    match q.ask cache with
    | (some out, _) => out
    | (none, cache) => q.make cache

/-- Runs with the cache, if there is one. -/
def run (q : Request) (cache : Option ReportCache) : Outcome :=
  match cache with
  | none => q.runUncached
  | some c => q.runCached c

end Request

end MicroFlow
