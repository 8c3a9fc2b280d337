import MicroFlow.Command.Run
import Std.Time

/-!
# The program

`main` reads the files that a command line can touch into a tree, runs the command line on
it, and writes back what has changed.
-/

namespace MicroFlow.Main

open MicroFlow.Text (Bytes)

/-- The entry at a path; a link in a directory stays a link. -/
partial def loadEntry (path : String) : IO (Option Entry) := do
  let place := (← IO.currentDir) / path
  if !(← place.pathExists) then return none
  else if ← place.isDir then
    let entries ← (← place.readDir).toList.filterMapM fun e => do
      let below := path ++ "/" ++ e.fileName
      if (← e.path.symlinkMetadata).type matches .symlink then
        let target ← try pure (← IO.FS.realPath below).toString catch _ => pure "missing"
        return some (e.fileName, Entry.link target)
      else return (← loadEntry below).map fun found => (e.fileName, found)
    return some (.directory (entries.foldl (fun all (name, e) => Entry.insertNamed name e all) []))
  else return some (.file (← IO.FS.readBinFile path).toList)

/-- The text of an absolute path. -/
def absoluteText (names : List Bytes) : String := Text.ofBytes (Path.slash :: Path.join names)

/-- The directories above a path that exist, as names from the root. -/
def existingAbove (names : List Bytes) : IO (List Bytes) := do
  let chains := (List.range names.length).map fun i => names.take (names.length - i - 1)
  for chain in chains do
    if ← ((← IO.currentDir) / absoluteText chain).isDir then return chain
  return []

/-- Adds what is at a path to the files, with the directories above it. -/
def load (fs : Files) (path : String) : IO Files := do
  let names := Path.names (fs.absolute path)
  match ← loadEntry (absoluteText names) with
  | some e => return { fs with root := fs.root.put names e }
  | none =>
    let chain ← existingAbove names
    if (fs.root.get? chain).isSome then return fs
    else return { fs with root := fs.root.put chain (.directory []) }

/-- Writes the entries that differ from those before. -/
partial def store (path : String) (old : Option Entry) : Entry → IO Unit
  | .file contents =>
    match old with
    | some (.file before) =>
      if before == contents then return else IO.FS.writeBinFile path ⟨contents.toArray⟩
    | _ => IO.FS.writeBinFile path ⟨contents.toArray⟩
  | .directory entries => do
    if old.isNone then IO.FS.createDirAll path
    for (name, e) in entries do
      store (path ++ "/" ++ Text.ofBytes name) (old.bind (·.child? name)) e
  | .link _ => return

/-- The variables that have a meaning for the program. -/
def envVars : IO (List (String × String)) := do
  let names := ["MCA_ANALYSIS", "MCA_SOLVER", "MCA_FORMAT", "MCA_CACHE_ENABLED", "MCA_CACHE_PATH",
    "MCA_CACHE_SIZE", "MCA_VERBOSE"]
  names.filterMapM fun name => do return (← IO.getEnv name).map fun value => (name, value)

/-- The environment with the files that a command line can touch. -/
def environment (words : List String) : IO Environment := do
  let work := Path.names (← IO.currentDir).toString
  let fs : Files := { root := Entry.put (.directory []) work (.directory []), work := work }
  let home := (← IO.getEnv "HOME").filter (· != "")
  let env : Environment := { files := fs, home := home, vars := ← envVars }
  let a : Arguments := match Command.parse words with
    | .ok (.action _ a) => a
    | _ => {}
  let named := ([a.text "config", a.text "output"] ++ a.words).filter fun p => p != "" && p != "-"
  let fs ← ([Settings.globalPath env, Settings.projectPath] ++ named).foldlM load fs
  let env := { env with files := fs }
  let config := a.text "config"
  let loaded := if config == "" then Settings.load env else Settings.loadFrom env config
  match loaded with
  | .ok s =>
    return { env with files := ← if s.cachePath == "" then pure fs else load fs s.cachePath }
  | .error _ => return env

end MicroFlow.Main

open MicroFlow in
/-- Runs a command line. -/
def main (words : List String) : IO UInt32 := do
  let env ← Main.environment words
  let input ← if words.contains "-" then (← IO.getStdin).readBinToEnd else pure .empty
  let now ← Std.Time.Timestamp.now
  let stamp := (← Std.Time.PlainDateTime.now).format "uuuu-MM-dd HH:mm:ss"
  let s : Session :=
    { environment := env
      input := input.toList
      stamp := stamp
      now := { seconds := now.toSecondsSinceUnixEpoch.val.toNat, nanoseconds :=
        now.val.nano.val.toNat }
      elapsed := "0s" }
  match Command.run s words with
  | .error f =>
    IO.eprintln ("panic: " ++ f.message?.getD "broken reference")
    return 2
  | .ok r =>
    Main.store "" (some env.files.root) r.files.root
    let out ← IO.getStdout
    out.write ⟨r.output.toArray⟩
    out.flush
    IO.eprint r.messages
    return if r.error.isSome then 1 else 0
