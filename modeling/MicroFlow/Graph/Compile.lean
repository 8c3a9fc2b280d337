import MicroFlow.Graph.Lowering
import MicroFlow.Source.Parser

/-!
# From source text to program graph

`compile` reads a source text and turns the program into a graph.
-/

namespace MicroFlow

/-- Why a source text has no graph. -/
inductive CompileError where
  | syntaxError (e : Source.SyntaxError)
  | build (e : BuildError)
deriving DecidableEq, Repr

/-- The message for a source text that has no graph. -/
def CompileError.message? : CompileError → Option String
  | syntaxError e => some ("parsing program: " ++ e.message)
  | build e => e.message?.map ("building program graph: " ++ ·)

/-- The graph of a source text, with the findings made on the way. -/
def compile (src : Text.Bytes) : Except CompileError Built :=
  match Source.parse src with
  | .error e => .error (.syntaxError e)
  | .ok p =>
    match build p with
    | .error e => .error (.build e)
    | .ok b => .ok b

end MicroFlow
