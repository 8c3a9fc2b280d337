import MicroFlow.Command.Basic
import MicroFlow.Command.Programs
import MicroFlow.Command.Upkeep

/-!
# Running a command line

`run` takes the words of a command line and a session and gives all that the program
leaves behind: what it prints, the files, and the message with which it failed.
-/

namespace MicroFlow

open MicroFlow.Text (Bytes)

/-- What a run leaves behind. -/
structure RunResult where
  files : Files
  /-- The standard output. -/
  output : Bytes := []
  /-- The standard error output. -/
  messages : String := ""
  /-- The message with which the run failed. -/
  error : Option String := none

namespace Command

/-- How a command is used. -/
def usage (c : Command) : String :=
  "Usage:\n  " ++ c.path ++
    (if c.arity == .one then " <file>" else "") ++
    (if c.children.isEmpty then " [flags]\n" else " [command]\n") ++
    (if c.children.isEmpty then ""
      else "\nCommands:\n" ++ String.join (c.children.map fun (name, _) => "  " ++ name ++ "\n")) ++
    "\nFlags:\n" ++ String.join (c.flags.map fun f => "  --" ++ f.name ++ "\n")

def job (c : Command) (s : Session) (a : Arguments) : Job Unit :=
  let path := a.words.headD ""
  match c with
  | analyze => Job.analyze s a path
  | graph => Job.graph s a path
  | compare => Job.compareSolvers s a path
  | slice => Job.slice s a path
  | cacheStats => Job.cacheStats s a
  | cacheClear => Job.cacheClear s a
  | init => Job.writeDefaults s a
  | doctor => Job.doctor s a
  | _ => Job.print c.usage

def errorLine (message : String) : String := "Error: " ++ message ++ "\n"

/-- What an error in the command line leaves behind. -/
def refused (fs : Files) (e : CommandError) : RunResult :=
  let hint := match e with
    | .unknown _ _ => "Run 'mca --help' for usage.\n"
    | _ => ""
  { files := fs, messages := errorLine e.message ++ hint, error := some e.message }

/-- Runs a command line. -/
def run (s : Session) (words : List String) : Except Fault RunResult :=
  let fs := s.environment.files
  match parse words with
  | .error e => .ok (refused fs e)
  | .ok (.usage c) => .ok { files := fs, output := Text.toBytes c.usage }
  | .ok (.action c a) =>
    match (c.job s a).run.run { files := fs } with
    | (.ok (), p) => .ok { files := p.files, output := p.output, messages := p.messages }
    | (.error (.failed message), p) =>
      .ok { files := p.files, output := p.output, messages := p.messages ++ errorLine message,
            error := some message }
    | (.error (.fault f), _) => .error f

end Command

end MicroFlow
