import MicroFlow.Flow.Frontier
import MicroFlow.Text.Case

/-!
# Choosing an analysis and a solver

Names of analyses and solvers are accepted in upper and lower case and in short
forms.  A name can also be taken as it is: then an unknown one is carried along, and
refused when the analysis is about to start.
-/

namespace MicroFlow

inductive AnalysisKind where
  | reaching
  | live
  | sign
  | unknown (name : String)
deriving DecidableEq, Repr, Inhabited

namespace AnalysisKind

/-- The analyses on offer. -/
def all : List AnalysisKind := [reaching, live, sign]

def name : AnalysisKind → String
  | reaching => "reaching"
  | live => "live"
  | sign => "sign"
  | unknown s => s

/-- The analysis of a name that is taken as it is. -/
def ofName (s : String) : AnalysisKind := (all.find? (·.name == s)).getD (unknown s)

/-- The names under which an analysis is accepted. -/
def aliases : List (String × AnalysisKind) :=
  [("reaching", reaching), ("rd", reaching), ("reaching-definitions", reaching),
    ("live", live), ("lv", live), ("live-variables", live),
    ("sign", sign), ("signs", sign), ("sign-detection", sign)]

/-- The analysis with a name or a short form, in upper or lower case. -/
def read? (s : String) : Option AnalysisKind := aliases.lookup (Text.toLower s)

/-- The message for a name under which no analysis is accepted. -/
def unknownText (s : String) : String :=
  "unknown analysis " ++ Text.quote s ++ " (want one of reaching, live, sign)"

end AnalysisKind

inductive SolverKind where
  | chaotic
  | worklist (strategy : Strategy)
  | unknown (name : String)
deriving DecidableEq, Repr, Inhabited

namespace SolverKind

/-- The solvers on offer. -/
def all : List SolverKind := [chaotic, worklist .fifo, worklist .lifo, worklist .roundRobin]

def name : SolverKind → String
  | chaotic => "chaotic"
  | worklist .fifo => "fifo"
  | worklist .lifo => "lifo"
  | worklist .roundRobin => "roundrobin"
  | unknown s => s

/-- The name under which the runs of a solver are reported. -/
def label : SolverKind → String
  | chaotic => "chaotic"
  | worklist s => "worklist-" ++ s.name
  | unknown s => "worklist-" ++ s

/-- The solver of a name that is taken as it is. -/
def ofName (s : String) : SolverKind :=
  match all.find? (·.name == s), Strategy.ofName? s with
  | some k, _ => k
  | none, some strategy => worklist strategy
  | none, none => unknown s

/-- The text behind a beginning that may be there. -/
def dropBeginning (beginning s : String) : String :=
  if beginning.toList.isPrefixOf s.toList then String.ofList (s.toList.drop beginning.length) else s

/-- The solver with a name or a short form, in upper or lower case. -/
def read? (s : String) : Option SolverKind :=
  let name := dropBeginning "worklist-" (Text.toLower s)
  if name == "round-robin" || name == "rr" then some (worklist .roundRobin)
  else all.find? (·.name == name)

/-- The message for a name under which no solver is accepted. -/
def unknownText (s : String) : String :=
  "unknown solver " ++ Text.quote s ++ " (want one of chaotic, fifo, lifo, roundrobin)"

end SolverKind

/-- The analysis and the solver with these names, or the message that refuses one of them. -/
def choose (analysis solver : String) : Except String (AnalysisKind × SolverKind) :=
  match AnalysisKind.read? analysis, SolverKind.read? solver with
  | none, _ => .error (AnalysisKind.unknownText analysis)
  | _, none => .error (SolverKind.unknownText solver)
  | some a, some k => .ok (a, k)

end MicroFlow
