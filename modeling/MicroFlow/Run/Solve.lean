import MicroFlow.Flow.LiveVariables
import MicroFlow.Flow.ReachingDefinitions
import MicroFlow.Flow.SignDetection
import MicroFlow.Graph.Compile
import MicroFlow.Log.Basic
import MicroFlow.Report.Basic
import MicroFlow.Run.Choice

/-!
# Analysing a program

`solve` runs one analysis with one solver on a compiled program and makes the report.
`compare` runs an analysis with every solver and says which of them agree with the
first.

A run can be cancelled from outside; a cancelled run fails before it starts to solve.
-/

namespace MicroFlow

/-- Why an analysis has no report. -/
inductive RunError where
  | cancelled
  | compile (e : CompileError)
  | unknownAnalysis (name : String)
  | unknownStrategy (analysis name : String)
  | fault (f : Fault)
deriving DecidableEq, Repr

/-- The message for an analysis without a report. -/
def RunError.message? : RunError → Option String
  | cancelled => some "context canceled"
  | compile e => e.message?
  | unknownAnalysis s => some ("unknown analysis " ++ Text.quote s)
  | unknownStrategy a s => some ("solving " ++ a ++ ": " ++ Strategy.unknownText s)
  | fault f => f.message?

/-- The message, or nothing when the program broke off without one. -/
def RunError.text (e : RunError) : String := e.message?.getD ""

/-- The values that a solver finds. -/
def Analysis.solve {M : Type} (a : Analysis M) (g : Graph) (s : SolverKind) :
    Except RunError (Solution M) :=
  let found : Except Fault (Solution M) → Except RunError (Solution M)
    | .ok solution => .ok solution
    | .error f => .error (.fault f)
  match s with
  | .chaotic => found (a.chaotic g none)
  | .worklist strategy => found (a.worklist g strategy none)
  | .unknown name => .error (.unknownStrategy a.name name)

def Analysis.report {M : Type} (a : Analysis M) (b : Built) (s : SolverKind) :
    Except RunError Report := do
  let solution ← a.solve b.graph s
  match Report.ofSolution a b.graph s.label solution b.findings with
  | .ok r => return r
  | .error f => .error (.fault f)

/-- The report of an analysis of a compiled program. -/
def solve (cancelled : Bool) (b : Built) (a : AnalysisKind) (s : SolverKind) :
    Except RunError Report :=
  if cancelled then .error .cancelled
  else
    match a with
    | .reaching => (reachingDefinitions b.graph).report b s
    | .live => (liveVariables b.graph).report b s
    | .sign => (signDetection b.graph).report b s
    | .unknown name => .error (.unknownAnalysis name)

/-- The compiled program of a source text. -/
def compiled (src : Text.Bytes) : Except RunError Built :=
  match compile src with
  | .ok b => .ok b
  | .error e => .error (.compile e)

/-- The report of an analysis of a source text. -/
def analyze (src : Text.Bytes) (a : AnalysisKind) (s : SolverKind) : Except RunError Report := do
  solve false (← compiled src) a s

/-! ## Comparing solvers -/

/-- How one solver fared. -/
structure SolverRun where
  solver : String
  steps : Int
  /-- The solver found the same as the first one. -/
  agrees : Bool
deriving DecidableEq, Repr

def SolverRun.toData (r : SolverRun) : Data :=
  .record [("solver", .text r.solver), ("steps", .int r.steps), ("agrees", .bool r.agrees)]

/-- How every solver fared on one analysis. -/
structure Comparison where
  analysis : String
  runs : List SolverRun
  /-- The report of the first solver. -/
  report : Report
deriving DecidableEq, Repr

namespace Comparison

/-- Every solver found the same. -/
def agree (c : Comparison) : Bool := c.runs.all SolverRun.agrees

/-- The fields of a written comparison. -/
def fields (c : Comparison) : List (String × Data) :=
  [("analysis", .text c.analysis), ("runs", .list (c.runs.map SolverRun.toData))]

/-- A text with blanks behind it, up to a width. -/
def padRight (width : Nat) (s : String) : String :=
  s ++ String.ofList (List.replicate (width - s.length) ' ')

/-- A text with blanks before it, up to a width. -/
def padLeft (width : Nat) (s : String) : String :=
  String.ofList (List.replicate (width - s.length) ' ') ++ s

def runLine (r : SolverRun) : String :=
  "  " ++ padRight 22 r.solver ++ " " ++ padLeft 6 (toString r.steps) ++ " steps  " ++
    (if r.agrees then "same fixpoint" else "DIFFERENT fixpoint") ++ "\n"

/-- The text form of a comparison. -/
def text (c : Comparison) : String :=
  "=== " ++ c.analysis ++ " ===\n" ++ String.join (c.runs.map runLine)

/-- Two lists of nodes say the same. -/
def sameNodes : List Report.Node → List Report.Node → Bool
  | [], [] => true
  | x :: xs, y :: ys =>
    x.id == y.id && x.defined == y.defined && x.bindings == y.bindings && sameNodes xs ys
  | _, _ => false

/-- How the solver of a report fared beside the first one. -/
def runOf (first r : Report) : SolverRun := ⟨r.solver, r.steps, sameNodes first.nodeList r.nodeList⟩

/-- What is logged for the solver of a report. -/
def entriesOf (first r : Report) : List LogEntry :=
  (if (runOf first r).agrees then []
    else [⟨.warn, "solvers disagree",
      [.text "analysis", .text r.analysis, .text "solver", .text r.solver]⟩]) ++
  [⟨.debug, "solver finished", [.text "solver", .text r.solver, .text "steps", .int r.steps]⟩]

end Comparison

/-- Runs an analysis of a source text with every solver. -/
def compare (cancelled : Bool) (src : Text.Bytes) (a : AnalysisKind) :
    Except RunError (Comparison × List LogEntry) := do
  let b ← compiled src
  let first ← solve cancelled b a .chaotic
  let reports ← SolverKind.all.mapM fun s => solve cancelled b a s
  return (
    { analysis := first.analysis, runs := reports.map (Comparison.runOf first), report := first },
    reports.flatMap (Comparison.entriesOf first))

end MicroFlow
